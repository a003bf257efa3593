/-
# `PureDataPacket.Scaf.Threshold` — automata from pictures

`pdp_type_grey2ca` makes a packet with rounded dimensions, but goes through all pixels of the
image with the stride of the image.  If the width is a multiple of 64 and there are four rows,
nothing has been rounded, and a cell tells whether its pixel is above the threshold.
-/
import PureDataPacket.Scaf.Packets
import PureDataPacket.Scaf.Picture
import PureDataPacket.Type.Bounds

namespace PureDataPacket

open PoolProg (call)

/-! ## The conversion -/

/-- `_pdp_type_grey2ca_convert_word`, of the pixels behind `src`; the last one comes first. -/
def grey2caConvertWord (threshold : Int) (src : List Int) : BitVec 16 :=
  src.foldr (fun pixel dest => dest <<< 1 ||| if threshold < pixel then 1 else 0) 0

/-- `dest[n >> 4]`, from the pixels behind `source[n]`. -/
def grey2caWord (threshold n : Int) : Step where
  source := s16
  target := s16
  loads := (List.range 16).map fun i : Nat => n + i
  index := n / 16
  value src := (grey2caConvertWord threshold src).toNat

/-- The two loops.  With a negative stride, `y` gets to the end of the `int`s. -/
def grey2caWords (threshold w h : Int) : Option (List Step) :=
  if w < 0 ∧ 0 < h * w then none
  else some <| (counter 0 (h * w) w).flatMap fun y =>
    (counter 0 w 16).map fun x => grey2caWord threshold (x + y)

/-- `pdp_type_grey2ca`. -/
def pdpTypeGrey2ca (threshold packet : Int) : PoolProg Int := do
  match ← call (.header packet) with
  | none => pure (-1)
  | some header =>
      if !pdpPacketImageIsvalid header then pure (-1)
      else
        let w := toInt32 header.info.width
        let h := toInt32 header.info.height
        checked (intMul w h) fun _ =>
          if ¬(header.info.encoding = pdpImageGREY ∨ header.info.encoding = pdpImageYV12) then
            pure (-1)
          else convertInto packet (pdpPacketNewCa w h) (grey2caWords threshold w h)

/-! ## What is expected of it -/

namespace Packet

/-- The cells of a packet, in words as the machine loads them. -/
def caPacket (q : Packet) : CaPacket where
  width := q.info.width
  height := q.info.height
  offset := q.info.depth
  data i := BitVec.ofNat 32 (word (q.data.bytes.drop (4 * i.toNat)))

/-- The width, as it is read into an `int`. -/
def columns (p : Packet) : Int := toInt32 p.info.width

def rows (p : Packet) : Int := toInt32 p.info.height

def pixel (p : Packet) (x y : Int) : Int := s16.load p.data.bytes (y * p.columns + x)

/-- The packet `q` shows which pixels of `p` are above the threshold. -/
structure Thresholded (threshold : Int) (p q : Packet) : Prop where
  type : q.type = pdpCa
  inside : ∀ x y : Nat, x < q.info.width → y < q.info.height →
    x < p.columns ∧ y < p.rows
  cells : ∀ x y : Nat, x < q.info.width → y < q.info.height →
    q.caPacket.cell (y * q.info.width + x) = decide (threshold < p.pixel x y)
  grey : ∀ fresh, ∃ image, q.caPacket.ca2grey fresh = some image ∧
    ∀ x y : Nat, x < q.info.width → y < q.info.height →
      image (y * q.info.width + x) = greyOf (decide (threshold < p.pixel x y))

/-- An image with a plane of grey pixels at its start. -/
structure HasGrey (p : Packet) : Prop where
  type : p.type = pdpImage
  encoding : p.info.encoding = pdpImageGREY ∨ p.info.encoding = pdpImageYV12

end Packet

/-- The conversion leaves no data area, and it fails or shows which pixels are above. -/
structure Grey2ca (threshold : Int) (p : Packet) : Prop where
  inBounds : InBounds (pdpTypeGrey2ca threshold) p
  result : ∀ s h r t, Held s h p → (pdpTypeGrey2ca threshold h).run s = .ok (r, t) → r = -1 ∨
    ∃ q, t.pdpPacketHeader r = some q ∧ p.Thresholded threshold q

/-! ## Words of cells -/

theorem getLsbD_convertWord (threshold : Int) : ∀ (src : List Int) (k : Nat) (hk : k < src.length),
    src.length ≤ 16 →
      (grey2caConvertWord threshold src).getLsbD k = decide (threshold < src.get ⟨k, hk⟩)
  | [], k, hk, _ => absurd hk (Nat.not_lt_zero k)
  | pixel :: src, k, hk, hlen => by
      have hfold : grey2caConvertWord threshold (pixel :: src) =
          grey2caConvertWord threshold src <<< 1 ||| if threshold < pixel then 1 else 0 := rfl
      have hword : k < 16 := Nat.lt_of_lt_of_le hk hlen
      rw [hfold, BitVec.getLsbD_or, BitVec.getLsbD_shiftLeft, decide_eq_true hword, Bool.true_and]
      cases k with
      | zero =>
          by_cases hpixel : threshold < pixel
          · simp [hpixel]
          · simp [hpixel]
      | succ k =>
          have hlast : (if threshold < pixel then 1 else 0 : BitVec 16).getLsbD (k + 1) = false := by
            split
            · simp
            · simp
          have hnext : decide (k + 1 < 1) = false := decide_eq_false (by omega)
          rw [hlast, hnext, Bool.or_false, Bool.not_false, Bool.true_and, Nat.add_sub_cancel]
          exact getLsbD_convertWord threshold src k (Nat.lt_of_succ_lt_succ hk)
            (Nat.le_of_succ_le hlen)

theorem word_drop {l : List UInt8} {n : Nat} {a b c d : UInt8} (ha : l[n]? = some a)
    (hb : l[n + 1]? = some b) (hc : l[n + 2]? = some c) (hd : l[n + 3]? = some d) :
    word (l.drop n) = ofBytes a b c d := by
  have hdrop : ∀ {i : Nat} {e : UInt8}, l[i]? = some e → l.drop i = e :: l.drop (i + 1) := by
    intro i e he
    obtain ⟨hlt, rfl⟩ := List.getElem?_eq_some_iff.mp he
    exact List.drop_eq_getElem_cons hlt
  rw [hdrop ha, hdrop hb, hdrop hc, hdrop hd]
  rfl

theorem halfword_caPacket {q : Packet} {i : Nat} {a b : UInt8} (hsize : 4 ∣ q.data.bytes.length)
    (ha : q.data.bytes[2 * i]? = some a) (hb : q.data.bytes[2 * i + 1]? = some b) :
    q.caPacket.halfword i = BitVec.ofNat 16 (a.toNat + 2 ^ 8 * b.toNat) := by
  have hlt : 2 * i + 1 < q.data.bytes.length := (List.getElem?_eq_some_iff.mp hb).1
  have hsome : ∀ k < q.data.bytes.length, ∃ c, q.data.bytes[k]? = some c :=
    fun k hk => ⟨_, List.getElem?_eq_getElem hk⟩
  have ha' := a.toNat_lt
  have hb' := b.toNat_lt
  unfold CaPacket.halfword Packet.caPacket
  apply BitVec.eq_of_toNat_eq
  rcases Nat.even_or_odd' i with ⟨j, rfl | rfl⟩
  · obtain ⟨c, hc⟩ := hsome (2 * (2 * j) + 2) (by omega)
    obtain ⟨d, hd⟩ := hsome (2 * (2 * j) + 3) (by omega)
    have hindex : 4 * (((2 * j : Nat) : Int) / 2).toNat = 2 * (2 * j) := by omega
    have hshift : (16 * (((2 * j : Nat) : Int) % 2)).toNat = 0 := by omega
    dsimp only
    rw [hindex, hshift, word_drop ha hb hc hd, BitVec.ushiftRight_zero]
    unfold ofBytes
    have hc' := c.toNat_lt
    have hd' := d.toNat_lt
    simp only [BitVec.toNat_setWidth, BitVec.toNat_ofNat]
    omega
  · obtain ⟨c, hc⟩ := hsome (4 * j) (by omega)
    obtain ⟨d, hd⟩ := hsome (4 * j + 1) (by omega)
    have hindex : 4 * (((2 * j + 1 : Nat) : Int) / 2).toNat = 4 * j := by omega
    have hshift : (16 * (((2 * j + 1 : Nat) : Int) % 2)).toNat = 16 := by omega
    have ha₂ : 2 * (2 * j + 1) = 4 * j + 2 := by omega
    rw [ha₂] at ha hb
    dsimp only
    rw [hindex, hshift, word_drop hc hd ha hb]
    unfold ofBytes
    have hc' := c.toNat_lt
    have hd' := d.toNat_lt
    simp only [BitVec.toNat_setWidth, BitVec.toNat_ushiftRight, BitVec.toNat_ofNat,
      Nat.shiftRight_eq_div_pow]
    omega

/-! ## The words of an image -/

section Words

variable {threshold w h : Int} {l : List Step}

theorem mem_grey2caWords (hw : 0 < w) (hl : grey2caWords threshold w h = some l) (st : Step) :
    st ∈ l ↔ ∃ y x, 0 ≤ y ∧ y < h ∧ 0 ≤ x ∧ x < w ∧ x % 16 = 0 ∧
      st = grey2caWord threshold (x + y * w) := by
  unfold grey2caWords at hl
  rw [if_neg (by omega)] at hl
  obtain rfl := Option.some.inj hl
  have hrows := fun y => mem_rows (b := h) hw (a := 0) y
  simp only [Int.zero_mul] at hrows
  simp only [List.mem_flatMap, List.mem_map, hrows, mem_columns (a := 0) (b := w) rfl]
  constructor
  · rintro ⟨_, ⟨y, hy, hyh, rfl⟩, x, ⟨hx, hxw, hx16⟩, rfl⟩
    exact ⟨y, x, hy, hyh, hx, hxw, hx16, rfl⟩
  · rintro ⟨y, x, hy, hyh, hx, hxw, hx16, rfl⟩
    exact ⟨_, ⟨y, hy, hyh, rfl⟩, x, ⟨hx, hxw, hx16⟩, rfl⟩

theorem grey2caWords_some (threshold h : Int) (hw : 0 < w) :
    ∃ l, grey2caWords threshold w h = some l :=
  ⟨_, if_neg (by omega)⟩

theorem fits_grey2caWord {n : Int} {size size' : Nat} :
    (grey2caWord threshold n).Fits size size' ↔
      (0 ≤ n ∧ 2 * (n + 16) ≤ size) ∧ 2 * (n / 16) + 2 ≤ size' := by
  have hloads : (∀ i ∈ (grey2caWord threshold n).loads, s16.Within size i) ↔
      0 ≤ n ∧ 2 * (n + 16) ≤ size := by
    simp only [grey2caWord, List.mem_map, List.mem_range, forall_exists_index, and_imp,
      forall_apply_eq_imp_iff₂, within_s16]
    constructor
    · intro h
      have hfirst := h 0 (by omega)
      have hlast := h 15 (by omega)
      omega
    · intro h i hi
      omega
  have hindex : s16.Within size' (n / 16) ↔ 0 ≤ n / 16 ∧ 2 * (n / 16) + 2 ≤ size' := within_s16
  unfold Step.Fits
  show (∀ i ∈ (grey2caWord threshold n).loads, s16.Within size i) ∧ s16.Within size' (n / 16) ↔ _
  rw [hloads, hindex]
  omega

/-- If the width is that of whole words, the words are inside. -/
theorem fits_grey2caWords (hw : 0 < w) (hw16 : w % 16 = 0) {size size' : Nat}
    (hl : grey2caWords threshold w h = some l) (hsize : 2 * (w * h) ≤ size)
    (hsize' : w * h ≤ 8 * size') : Fits l size size' := by
  intro st hst
  obtain ⟨y, x, hy, hyh, hx, hxw, hx16, rfl⟩ := (mem_grey2caWords hw hl st).mp hst
  have hlast := row_lt (w := w) (x := x + 15) hyh (by omega) hw
  have hrow : 0 ≤ y * w := Int.mul_nonneg hy (by omega)
  rw [fits_grey2caWord]
  omega

/-- What the last word needs: the rows of the packet are not shorter than those of the image,
and the image has all its pixels. -/
theorem sizes_of_fits (hw : 64 ≤ w) (hh : 0 < h) {size size' : Nat}
    (hl : grey2caWords threshold w h = some l) (hfits : Fits l size size')
    (hsize' : 8 * (size' : Int) = w / 64 * 64 * h) : w % 64 = 0 ∧ 2 * (w * h) ≤ size := by
  have hlast : ∀ x, 0 ≤ x → x < w → x % 16 = 0 → 2 * (x + (h - 1) * w + 16) ≤ size ∧
      2 * ((x + (h - 1) * w) / 16) + 2 ≤ size' := by
    intro x hx hxw hx16
    have hst := hfits _ ((mem_grey2caWords (by omega) hl _).mpr
      ⟨h - 1, x, by omega, by omega, hx, hxw, hx16, rfl⟩)
    rw [fits_grey2caWord] at hst
    exact ⟨hst.1.2, hst.2⟩
  have hrow : (h - 1) * w = w * h - w := by ring
  have hwidth : w % 64 = 0 := by
    by_contra hne
    -- The word behind the last row of the packet is that of its column in the last row.
    obtain ⟨-, hword⟩ := hlast (w / 64 * 64) (by omega) (by omega) (by omega)
    have hmore : (h - 1) * (w / 64 * 64) ≤ (h - 1) * w :=
      Int.mul_le_mul_of_nonneg_left (by omega) (by omega)
    have hsplit : (h - 1) * (w / 64 * 64) = w / 64 * 64 * h - w / 64 * 64 := by ring
    omega
  refine ⟨hwidth, ?_⟩
  obtain ⟨hpixels, -⟩ := hlast (w - 16) (by omega) (by omega) (by omega)
  omega

theorem cell_of_words (hw : 0 < w) (hw16 : w % 16 = 0) {q : Packet} {src dst : List UInt8}
    (hl : grey2caWords threshold w h = some l)
    (hrun : runSteps src l dst = some q.data.bytes) (hsize : 4 ∣ q.data.bytes.length) {x y : Int}
    (hx : 0 ≤ x) (hxw : x < w) (hy : 0 ≤ y) (hyh : y < h) :
    q.caPacket.cell (y * w + x) = decide (threshold < s16.load src (y * w + x)) := by
  have hproduct : y * w % 16 = 0 := by
    rw [Int.mul_emod, hw16, Int.mul_zero, Int.zero_emod]
  have hrow : 0 ≤ y * w := Int.mul_nonneg hy (by omega)
  obtain ⟨i, hi⟩ : ∃ i : Nat, x / 16 * 16 + y * w = 16 * i :=
    ⟨((x / 16 * 16 + y * w) / 16).toNat, by omega⟩
  obtain ⟨k, hk⟩ : ∃ k : Nat, x % 16 = k := ⟨(x % 16).toNat, by omega⟩
  have hk16 : k < 16 := by omega
  have hcell : y * w + x = 16 * (i : Int) + k := by omega
  obtain ⟨st, hst⟩ : ∃ st, st = grey2caWord threshold (16 * i) := ⟨_, rfl⟩
  have hmem : st ∈ l := by
    rw [hst, ← hi]
    exact (mem_grey2caWords hw hl _).mpr
      ⟨y, x / 16 * 16, hy, hyh, by omega, by omega, by omega, rfl⟩
  have hindex : st.index = i := by
    rw [hst]
    show 16 * (i : Int) / 16 = i
    omega
  have htarget : st.target = s16 := by rw [hst]; rfl
  have hown : ∀ b : Nat, b < 2 → ∀ st' ∈ l, st'.target.Occupies st'.index (2 * i + b) →
      st' = st := by
    intro b hb st' hst' ho
    obtain ⟨y', x', -, -, -, -, hx16, rfl⟩ := (mem_grey2caWords hw hl _).mp hst'
    have hproduct' : y' * w % 16 = 0 := by
      rw [Int.mul_emod, hw16, Int.mul_zero, Int.zero_emod]
    have ho' := occupies_s16.mp (show s16.Occupies ((x' + y' * w) / 16) (2 * i + b) from ho)
    have hsame : x' + y' * w = 16 * i := by omega
    rw [hst, hsame]
  have hbyte : ∀ b : Nat, b < 2 → q.data.bytes[2 * i + b]? =
      (s16.encode (st.value (st.loads.map (st.source.load src))))[b]? := by
    intro b hb
    have hbytes := getElem?_runSteps_of_written hmem (p := 2 * i + b)
      (by rw [htarget, hindex, occupies_s16]; omega) (hown b hb) hrun
    have hoff : 2 * i + b - s16.size * (i : Int).toNat = b := by
      show 2 * i + b - 2 * (i : Int).toNat = b
      omega
    rw [htarget, hindex, hoff] at hbytes
    exact hbytes
  obtain ⟨v, hv⟩ : ∃ v, v = grey2caConvertWord threshold (st.loads.map (st.source.load src)) :=
    ⟨_, rfl⟩
  have hvalue : st.value (st.loads.map (st.source.load src)) = (v.toNat : Int) := by
    rw [hv, hst]
    rfl
  have hsmall : ((v.toNat : Int) % 2 ^ 16).toNat = v.toNat := by
    have := v.isLt
    omega
  have hlow := hbyte 0 (by omega)
  have hhigh := hbyte 1 (by omega)
  rw [hvalue] at hlow hhigh
  unfold s16 at hlow hhigh
  dsimp only at hlow hhigh
  rw [hsmall] at hlow hhigh
  have hhalf := halfword_caPacket hsize hlow hhigh
  have hword : q.caPacket.halfword i = v := by
    rw [hhalf]
    apply BitVec.eq_of_toNat_eq
    have := v.isLt
    simp only [BitVec.toNat_ofNat, UInt8.toNat_ofNat']
    omega
  have hloads : st.loads.map (st.source.load src) =
      (List.range 16).map fun j : Nat => s16.load src (16 * i + j) := by
    rw [hst]
    simp only [grey2caWord, List.map_map, Function.comp_def]
  have hlength : (st.loads.map (st.source.load src)).length = 16 := by
    rw [hloads, List.length_map, List.length_range]
  rw [hcell, ← CaPacket.getLsbD_halfword _ _ hk16, hword, hv,
    getLsbD_convertWord threshold _ k (by omega) (by omega)]
  simp only [List.get_eq_getElem, hloads, List.getElem_map, List.getElem_range]

end Words

/-- If rounding does not make it larger, the image is large enough. -/
theorem dims_of_le {w h w' h' : Int} (hw' : w' = if w < 64 then 64 else w / 64 * 64)
    (hh' : h' = if h < 4 then 4 else h) (hw : w' ≤ w) (hh : h' ≤ h) :
    64 ≤ w ∧ 4 ≤ h ∧ 8 * ((w' / 8 * h').toNat : Int) = w / 64 * 64 * h := by
  have hwide : 64 ≤ w := by
    split at hw' <;> omega
  have htall : 4 ≤ h := by
    split at hh' <;> omega
  rw [if_neg (by omega)] at hw' hh'
  refine ⟨hwide, htall, ?_⟩
  have hbytes : w' / 8 * h' = 8 * (w / 64 * h) := by
    rw [hw', hh', ← Int.mul_assoc]
    congr 1
    omega
  have hpos := Int.mul_nonneg (show 0 ≤ w / 64 by omega) (show 0 ≤ h by omega)
  have hcells : w / 64 * 64 * h = 64 * (w / 64 * h) := by ring
  rw [hbytes, hcells]
  omega

/-! ## Packets without an offset -/

/-- The dimensions of a packet as numbers of its loops. -/
structure Packet.Sized (q : Packet) (w h : Int) : Prop where
  width : (q.info.width : Int) = w
  height : (q.info.height : Int) = h
  offset : q.info.depth = 0
  width_le : 64 ≤ w
  width_mod : w % 64 = 0
  height_le : 4 ≤ h
  picture_lt : 2 * (w * h) + pdpHeaderSize < 2 ^ 31

namespace Packet.Sized

variable {q : Packet} {w h : Int} {x y : Nat}

theorem inside (hq : q.Sized w h) (hx : x < q.info.width) (hy : y < q.info.height) :
    x < w ∧ y < h := by
  rw [← hq.width, ← hq.height]
  exact ⟨Int.ofNat_lt.mpr hx, Int.ofNat_lt.mpr hy⟩

theorem four_dvd (hq : q.Sized w h) (hsize : q.data.bytes.length = (w / 8 * h).toNat) :
    4 ∣ q.data.bytes.length := by
  have hwidth := hq.width_mod
  obtain ⟨k, hk⟩ : ∃ k, w / 8 = 8 * k := ⟨w / 64, by omega⟩
  rw [hk, Int.mul_assoc] at hsize
  omega

theorem shown (hq : q.Sized w h) : q.caPacket.Shown := by
  obtain ⟨hw, hh, hoffset, hwide, hmod, htall, hpicture⟩ := hq
  have hpos := Int.mul_pos (show 0 < w by omega) (show 0 < h by omega)
  have hqarea : ((q.info.width * q.info.height : Nat) : Int) = w * h := by
    rw [Nat.cast_mul, hw, hh]
  refine ⟨?_, ?_, ?_, ?_, ?_, ?_⟩
  · show 0 < q.info.width
    omega
  · show 64 ∣ q.info.width
    omega
  · show 0 < q.info.height
    omega
  · show 2 * (q.info.width * q.info.height) + pdpHeaderSize < 2 ^ 31
    omega
  · show q.info.depth < q.info.width * q.info.height
    omega
  · show 16 ∣ q.info.depth % q.info.width
    rw [hoffset, Nat.zero_mod]
    exact Nat.dvd_zero _

theorem view (hq : q.Sized w h) (hx : x < q.info.width) (hy : y < q.info.height) :
    q.caPacket.view y x = q.caPacket.cell (y * q.info.width + x) := by
  have hx' : (x : Int) % q.info.width = x := Int.emod_eq_of_lt (by omega) (by omega)
  have hy' : (y : Int) % q.info.height = y := Int.emod_eq_of_lt (by omega) (by omega)
  show q.caPacket.cell (((y : Int) + (q.info.depth : Int) / q.info.width) % q.info.height *
    q.info.width + ((x : Int) + (q.info.depth : Int) % q.info.width) % q.info.width) = _
  rw [hq.offset, Nat.cast_zero, Int.zero_ediv, Int.zero_emod, Int.add_zero, Int.add_zero, hx', hy']

theorem cell (hq : q.Sized w h) {threshold : Int} {l : List Step} {src dst : List UInt8}
    (hl : grey2caWords threshold w h = some l) (hrun : runSteps src l dst = some q.data.bytes)
    (hsize : 4 ∣ q.data.bytes.length) (hx : x < q.info.width) (hy : y < q.info.height) :
    q.caPacket.cell (y * q.info.width + x) = decide (threshold < s16.load src (y * w + x)) := by
  obtain ⟨hxw, hyh⟩ := hq.inside hx hy
  obtain ⟨hw, -, -, hwide, hmod, -, -⟩ := hq
  rw [hw]
  exact cell_of_words (by omega) (by omega) hl hrun hsize (by omega) hxw (by omega) hyh

end Packet.Sized

/-! ## When the conversion keeps its promise -/

section Convert

variable {threshold : Int} {p : Packet}

theorem Packet.isInt_columns (p : Packet) : IsInt p.columns := isInt_toInt32 _

theorem Packet.isInt_rows (p : Packet) : IsInt p.rows := isInt_toInt32 _

theorem Packet.HasGrey.isvalid (hp : p.HasGrey) : pdpPacketImageIsvalid p = true := by
  unfold pdpPacketImageIsvalid
  rw [hp.type]
  rcases hp.encoding with he | he
  · rw [he]
    decide
  · rw [he]
    decide

theorem run_grey2ca (threshold : Int) (hp : p.HasGrey) {s : Pool} {packet : Int}
    (hheld : Held s packet p) :
    (pdpTypeGrey2ca threshold packet).run s = (checked (intMul p.columns p.rows) fun _ =>
      convertInto packet (pdpPacketNewCa p.columns p.rows)
        (grey2caWords threshold p.columns p.rows)).run s := by
  refine (run_header hheld _ _).trans ?_
  have hencoding : ¬¬(p.info.encoding = pdpImageGREY ∨ p.info.encoding = pdpImageYV12) :=
    not_not_intro hp.encoding
  simp only [hp.isvalid, Bool.not_true, Bool.false_eq_true, if_false, if_neg hencoding]
  rfl

attribute [irreducible] Packet.columns Packet.rows

/-- An area that is no `int`, or as many bytes. -/
theorem isInts_of_inBounds (hp : p.HasGrey) (hu : 0 < p.users)
    (h : InBounds (pdpTypeGrey2ca threshold) p) : IsInt (p.columns * p.rows) ∧
      IsInt (caWidth p.columns / 8 * caHeight p.rows) := by
  have hheld := held_recycling hu ⟨[], by decide⟩
  have hrun := run_grey2ca threshold hp hheld
  by_cases harea : IsInt (p.columns * p.rows)
  · refine ⟨harea, ?_⟩
    by_contra hbytes
    rw [intMul_eq_some.mpr ⟨harea, rfl⟩, checked] at hrun
    have hnone := newCa_undefined hbytes (recycling p ⟨[], by decide⟩)
    rw [convertInto_eq, run_makeAndFill_error hnone] at hrun
    cases h _ _ hheld .undefined hrun
  · have hnone : intMul p.columns p.rows = none := if_neg harea
    rw [hnone] at hrun
    cases h _ _ hheld .undefined hrun

section Ints

theorem constructs_grey2ca (hbytes : IsInt (caWidth p.columns / 8 * caHeight p.rows)) : Constructs
    (newCaOf p.columns p.rows (caWidth p.columns / 8 * caHeight p.rows)) pdpCa
    (caBytes p.columns p.rows) (caMade p.columns p.rows) := by
  obtain ⟨hsize, -, -⟩ := bytes_eq p.isInt_columns p.isInt_rows hbytes
  rw [← hsize]
  exact constructs_newCa _ _ _

variable (harea : IsInt (p.columns * p.rows))
  (hbytes : IsInt (caWidth p.columns / 8 * caHeight p.rows))

include harea hbytes

/-- If all products are `int`s. -/
theorem run_grey2ca_ints (hp : p.HasGrey) {s : Pool} {packet : Int} (hheld : Held s packet p) :
    (pdpTypeGrey2ca threshold packet).run s = (convertInto packet
      (newCaOf p.columns p.rows (caWidth p.columns / 8 * caHeight p.rows))
      (grey2caWords threshold p.columns p.rows)).run s := by
  have hnew : pdpPacketNewCa p.columns p.rows =
      newCaOf p.columns p.rows (caWidth p.columns / 8 * caHeight p.rows) := by
    unfold pdpPacketNewCa
    rw [intMul_eq_some.mpr ⟨hbytes, rfl⟩]
    rfl
  rw [run_grey2ca threshold hp hheld, intMul_eq_some.mpr ⟨harea, rfl⟩, checked, hnew]

theorem inBounds_grey2ca_iff (hp : p.HasGrey) (hu : 0 < p.users) :
    InBounds (pdpTypeGrey2ca threshold) p ↔ SafeFor (caBytes p.columns p.rows)
      (∃ l, grey2caWords threshold p.columns p.rows = some l ∧
        Fits l p.data.size (caBytes p.columns p.rows)) := by
  obtain ⟨-, -, hlt⟩ := bytes_eq p.isInt_columns p.isInt_rows hbytes
  exact (inBounds_congr fun s packet hheld => run_grey2ca_ints harea hbytes hp hheld).trans
    (inBounds_convertInto (constructs_grey2ca hbytes) (by omega) hu _)

theorem result_grey2ca (hp : p.HasGrey) {s t : Pool} {packet r : Int} (hheld : Held s packet p)
    (hrun : (pdpTypeGrey2ca threshold packet).run s = .ok (r, t))
    (hwords : Fitting (caBytes p.columns p.rows) → ∃ l,
      grey2caWords threshold p.columns p.rows = some l ∧
        Fits l p.data.size (caBytes p.columns p.rows)) : r = -1 ∨
      Fitting (caBytes p.columns p.rows) ∧ ∃ q : Packet, t.pdpPacketHeader r = some q ∧
        q.toMeta = caMade p.columns p.rows ∧ q.data.size = caBytes p.columns p.rows ∧
        ∃ l dst, grey2caWords threshold p.columns p.rows = some l ∧
          runSteps p.data.bytes l dst = some q.data.bytes := by
  obtain ⟨-, -, hlt⟩ := bytes_eq p.isInt_columns p.isInt_rows hbytes
  rw [run_grey2ca_ints harea hbytes hp hheld, convertInto_eq] at hrun
  rcases (constructs_grey2ca hbytes).run_cases (by omega) s with
    ⟨e, hmake, -⟩ | ⟨s₁, hmake⟩ | ⟨hfit, r', s₁, data, hmake, hr', hsize, hkeep⟩
  · rw [run_makeAndFill_error hmake] at hrun
    cases hrun
  · rw [run_makeAndFill hmake, checked, run_fillNew_failed] at hrun
    cases hrun
    exact Or.inl rfl
  · obtain ⟨l, hl, hfits⟩ := hwords hfit
    have hp₁ := hkeep _ _ hheld
    have hmade : Made packet p (caBytes p.columns p.rows) r' data s₁ := ⟨hp₁, ⟨_, hr'⟩, hsize⟩
    have hlen : data.bytes.length = caBytes p.columns p.rows := hsize
    obtain ⟨bytes, hsteps⟩ := runSteps_isSome_iff.mpr
      (show Fits l p.data.bytes.length data.bytes.length by rw [hlen]; exact hfits)
    obtain ⟨u, data', hfill, hq, hbytes'⟩ := run_fill_header hp₁.header hr' hsteps
    rw [run_makeAndFill hmake, checked, run_fillNew_made hmade, hl, hfill] at hrun
    cases hrun
    refine Or.inr ⟨hfit, _, hq, rfl, ?_, l, data.bytes, hl, by rw [hsteps, hbytes']⟩
    show data'.bytes.length = _
    rw [hbytes', length_runSteps hsteps]
    exact hsize

end Ints

/-- An image that nothing is rounded for, with all its pixels. -/
structure Packet.Unrounded (p : Packet) : Prop where
  width : 64 ≤ p.columns
  width_mod : p.columns % 64 = 0
  height : 4 ≤ p.rows
  size : 2 * (p.columns * p.rows) ≤ p.data.size

theorem Packet.Unrounded.dims (h : p.Unrounded) :
    caWidth p.columns = p.columns ∧ caHeight p.rows = p.rows := by
  have hw := h.width
  have hmod := h.width_mod
  have hh := h.height
  constructor
  · rw [caWidth_eq p.isInt_columns, if_neg (by omega)]
    omega
  · unfold caHeight
    rw [if_neg (by omega)]

theorem caBytes_eq (hun : p.Unrounded) :
    caBytes p.columns p.rows = (p.columns / 8 * p.rows).toNat := by
  obtain ⟨hwidth, hheight⟩ := hun.dims
  unfold caBytes
  rw [hwidth, hheight]

theorem sized_of_made (hun : p.Unrounded) {q : Packet}
    (hmeta : q.toMeta = caMade p.columns p.rows) : q.Sized p.columns p.rows := by
  obtain ⟨hwidth, hheight⟩ := hun.dims
  obtain ⟨hqw, hqh, hqd⟩ := dims_caMade p.isInt_columns p.isInt_rows
  have hinfo : q.info = (caMade p.columns p.rows).info := by
    show q.toMeta.info = _
    rw [hmeta]
  rw [← hinfo] at hqw hqh hqd
  have hpicture := hun.size
  have hdata := p.data.size_lt
  refine ⟨hqw.trans hwidth, hqh.trans hheight, hqd, hun.width, hun.width_mod, hun.height, ?_⟩
  unfold DataArea.size at hpicture
  omega

theorem thresholded_of_words (hun : p.Unrounded) {q : Packet}
    (hmeta : q.toMeta = caMade p.columns p.rows) (hsize : q.data.size = caBytes p.columns p.rows)
    {l : List Step} (hl : grey2caWords threshold p.columns p.rows = some l) {dst : List UInt8}
    (hrun : runSteps p.data.bytes l dst = some q.data.bytes) : p.Thresholded threshold q := by
  have hq := sized_of_made hun hmeta
  have hcells : ∀ x y : Nat, x < q.info.width → y < q.info.height →
      q.caPacket.cell (y * q.info.width + x) = decide (threshold < p.pixel x y) :=
    fun x y hx hy => hq.cell hl hrun (hq.four_dvd (hsize.trans (caBytes_eq hun))) hx hy
  refine ⟨?_, fun x y hx hy => hq.inside hx hy, hcells, fun fresh => ?_⟩
  · show q.toMeta.type = _
    rw [hmeta]
    rfl
  · obtain ⟨image, himage, hpixels⟩ := CaPacket.ca2grey_spec hq.shown fresh
    refine ⟨image, himage, fun x y hx hy => ?_⟩
    rw [← hcells x y hx hy, ← hq.view hx hy]
    exact hpixels y x (Int.natCast_nonneg y) (Int.ofNat_lt.mpr hy) (Int.natCast_nonneg x)
      (Int.ofNat_lt.mpr hx)

theorem fits_of_unrounded (hun : p.Unrounded) {l : List Step}
    (hl : grey2caWords threshold p.columns p.rows = some l) :
    Fits l p.data.size (caBytes p.columns p.rows) := by
  rw [caBytes_eq hun]
  obtain ⟨hw, hmod, hh, hsize⟩ := hun
  have hbytes : ∀ w h : Int, 64 ≤ w → w % 64 = 0 → w * h ≤ 8 * ((w / 8 * h).toNat : Int) := by
    intro w h hw hmod
    have hsplit : w * h = 8 * (w / 8 * h) := by
      rw [← Int.mul_assoc]
      congr 1
      omega
    omega
  have hmod16 : ∀ w : Int, w % 64 = 0 → w % 16 = 0 := fun w hmod => by omega
  exact fits_grey2caWords (Int.lt_of_lt_of_le (by decide) hw) (hmod16 _ hmod) hl hsize
    (hbytes _ _ hw hmod)

theorem Packet.Thresholded.le {q : Packet} (hth : p.Thresholded threshold q)
    (hw : 64 ≤ (q.info.width : Int)) (hh : 4 ≤ (q.info.height : Int)) :
    (q.info.width : Int) ≤ p.columns ∧ (q.info.height : Int) ≤ p.rows := by
  have hlast := hth.inside (q.info.width - 1) (q.info.height - 1) (by omega) (by omega)
  generalize p.columns = w at hlast ⊢
  generalize p.rows = h at hlast ⊢
  omega

/-- A run that makes a packet shows what has been rounded. -/
theorem unrounded_of_grey2ca (hp : p.HasGrey) (hu : 0 < p.users) (hg : Grey2ca threshold p)
    (harea : IsInt (p.columns * p.rows))
    (hbytes : IsInt (caWidth p.columns / 8 * caHeight p.rows))
    (hfit : Fitting (caBytes p.columns p.rows)) {l : List Step}
    (hl : grey2caWords threshold p.columns p.rows = some l)
    (hfits : Fits l p.data.size (caBytes p.columns p.rows)) : p.Unrounded := by
  obtain ⟨old, hold⟩ := exists_dataArea hfit
  obtain ⟨s₁, hmake, hr, hp₁⟩ := run_recycled (constructs_grey2ca hbytes) hu hfit hold
  have hmade : Made 0 p (caBytes p.columns p.rows) 1 old s₁ := ⟨⟨hp₁, hu⟩, ⟨_, hr⟩, hold⟩
  have hlen : old.bytes.length = caBytes p.columns p.rows := hold
  obtain ⟨bytes, hsteps⟩ := runSteps_isSome_iff.mpr
    (show Fits l p.data.bytes.length old.bytes.length by rw [hlen]; exact hfits)
  obtain ⟨u, data', hfill, hq, -⟩ := run_fill_header hp₁ hr hsteps
  have hrun : (pdpTypeGrey2ca threshold 0).run (recycling p old) = .ok (1, u) := by
    rw [run_grey2ca_ints harea hbytes hp (held_recycling hu old), convertInto_eq,
      run_makeAndFill hmake, checked, run_fillNew_made hmade, hl, hfill]
  rcases hg.result _ _ _ _ (held_recycling hu old) hrun with hone | ⟨q, hq', hth⟩
  · cases hone
  · cases hq.symm.trans hq'
    obtain ⟨hqw, hqh, -⟩ := dims_caMade p.isInt_columns p.isInt_rows
    obtain ⟨-, hwide, -, htall, -⟩ := rounded p.isInt_columns p.isInt_rows
    obtain ⟨hw, hh⟩ := hth.le (hqw.symm ▸ hwide) (hqh.symm ▸ htall)
    obtain ⟨hw', hh', hbytes'⟩ := dims_of_le (caWidth_eq p.isInt_columns) rfl
      (hqw.symm.trans_le hw) (hqh.symm.trans_le hh)
    obtain ⟨hmod, hsize⟩ := sizes_of_fits hw' (Int.lt_of_lt_of_le (by decide) hh') hl hfits hbytes'
    exact ⟨hw', hmod, hh', hsize⟩

theorem sizes_of_grey2ca (hp : p.HasGrey) (hu : 0 < p.users) (hg : Grey2ca threshold p) :
    IsInt (p.columns * p.rows) ∧ IsInt (caWidth p.columns / 8 * caHeight p.rows) ∧
      (Refused (caBytes p.columns p.rows) ∨ p.Unrounded) := by
  obtain ⟨harea, hbytes⟩ := isInts_of_inBounds hp hu hg.inBounds
  refine ⟨harea, hbytes, ?_⟩
  refine ((inBounds_grey2ca_iff harea hbytes hp hu).mp hg.inBounds).imp_right ?_
  rintro ⟨hfit, l, hl, hfits⟩
  exact unrounded_of_grey2ca hp hu hg harea hbytes hfit hl hfits

theorem grey2ca_of_sizes (hp : p.HasGrey) (hu : 0 < p.users) (harea : IsInt (p.columns * p.rows))
    (hbytes : IsInt (caWidth p.columns / 8 * caHeight p.rows))
    (hsize : Refused (caBytes p.columns p.rows) ∨ p.Unrounded) : Grey2ca threshold p := by
  have hun : Fitting (caBytes p.columns p.rows) → p.Unrounded := fun hfit =>
    hsize.resolve_left fun hrefused => not_fitting_of_refused hrefused hfit
  have hwords : Fitting (caBytes p.columns p.rows) → ∃ l,
      grey2caWords threshold p.columns p.rows = some l ∧
        Fits l p.data.size (caBytes p.columns p.rows) := by
    intro hfit
    obtain ⟨l, hl⟩ := grey2caWords_some threshold p.rows
      (Int.lt_of_lt_of_le (by decide) (hun hfit).width)
    exact ⟨l, hl, fits_of_unrounded (hun hfit) hl⟩
  refine ⟨(inBounds_grey2ca_iff harea hbytes hp hu).mpr ?_, fun s h r t hheld hrun => ?_⟩
  · obtain ⟨-, -, hlt⟩ := bytes_eq p.isInt_columns p.isInt_rows hbytes
    exact or_iff_not_imp_left.mpr fun hrefused =>
      ⟨fitting_of_not_refused hlt hrefused, hwords (fitting_of_not_refused hlt hrefused)⟩
  · refine (result_grey2ca harea hbytes hp hheld hrun hwords).imp_right ?_
    rintro ⟨hfit, q, hq, hmeta, hqsize, l, dst, hl, hsteps⟩
    exact ⟨q, hq, thresholded_of_words (hun hfit) hmeta hqsize hl hsteps⟩

end Convert

/-- A black image of at most 72 columns and 4 rows. -/
def greyOfSize (w h : Nat) : Packet where
  toMeta := ⟨pdpImage, none, 0, none, ⟨pdpImageGREY, w, h, 0, 0⟩⟩
  users := 1
  data := .ofFill 576 (by decide) fun _ => 0

/-- An image of 72 columns. -/
theorem not_grey2ca_wide : ¬Grey2ca 0 (greyOfSize 72 4) := by
  intro hg
  obtain ⟨-, -, hsize⟩ := sizes_of_grey2ca ⟨rfl, Or.inl rfl⟩ (by decide) hg
  rcases hsize with hrefused | hun
  · revert hrefused
    decide +kernel
  · have hmod := hun.width_mod
    revert hmod
    decide +kernel

/-- The conversion keeps its promise exactly if all products are `int`s, and if, besides, the
pool refuses a packet of that size or nothing is rounded. -/
theorem grey2ca_iff (threshold : Int) (p : Packet) (hp : p.HasGrey) (hu : 0 < p.users) :
    Grey2ca threshold p ↔ IsInt (p.columns * p.rows) ∧
      IsInt (caWidth p.columns / 8 * caHeight p.rows) ∧
      (Refused (caBytes p.columns p.rows) ∨ p.Unrounded) :=
  ⟨sizes_of_grey2ca hp hu, fun ⟨harea, hbytes, hsize⟩ => grey2ca_of_sizes hp hu harea hbytes hsize⟩

theorem grey2ca_small : Grey2ca 0 (greyOfSize 64 4) :=
  (grey2ca_iff 0 _ ⟨rfl, Or.inl rfl⟩ (by decide)).mpr
    ⟨by decide +kernel, by decide +kernel, Or.inr ⟨by decide +kernel, by decide +kernel,
      by decide +kernel, by decide +kernel⟩⟩

end PureDataPacket
