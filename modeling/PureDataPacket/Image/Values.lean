/-
# `PureDataPacket.Image.Values` — real values as pixels, and back

An array and a matrix hold real values, and a grey image holds these times `0x8000` as 16-bit
pixels.  `pdp_array_bang` and the conversion of a matrix make the pixels, each with limits of its
own; `pdp_array_input_0` and the conversion of an image make the values.

| | |
| :-- | :-- |
| `saturated` | the pixel that a value should have |
| `ArrayFits`, `MatrixFits` | when the two programs give it |
| `OwnColumns` | an image that looks the same when its columns are read for rows |
| `values_pixels` | all of this at once, and the way there and back |

The conversion of a number that is too large for the type has no defined result.  Images and
matrices are those that a packet has room for.  For others the constructors have no packet, or a
smaller one, as sizes are cut to 32 bits; apart from this `malloc` does not fail.
-/
import Mathlib.Data.Int.ConditionallyCompleteOrder
import Mathlib.Data.List.GetD
import PureDataPacket.Image.Imageproc
import PureDataPacket.Kernel.Packet

namespace PureDataPacket

/-! ## Pixels from values -/

/-- `(int)f`. -/
def intOf (x : ℚ) : Option Int :=
  if -2 ^ 31 ≤ truncate x ∧ truncate x < 2 ^ 31 then some (truncate x) else none

/-- `(s16)f`. -/
def s16Of (x : ℚ) : Option S16 :=
  if -2 ^ 15 ≤ truncate x ∧ truncate x < 2 ^ 15 then some (toS16 (truncate x)) else none

/-- A pixel of `pdp_array_bang`. -/
def arrayPixel (v : ℚ) : Option S16 :=
  let max : ℚ := 0x8000
  let f := v * max
  match intOf f with
  | none => none
  | some l =>
      let l := if l > 0x8000 then 0x7fff else l
      let l := if l < -0x8000 then -0x8000 else l
      some (toS16 l)

/-- A pixel of `_pdp_packet_convert_matrix_to_greyimage`. -/
def matrixPixel (v : ℚ) : Option S16 := s16Of (v * 0x8000)

/-- A value of `pdp_array_input_0` and of `_pdp_packet_convert_image_to_matrix`. -/
def pixelValue (p : S16) : ℚ := p.toInt * (1 / 0x8000)

/-- The loop that stores the pixels of some values, as far as there are places. -/
def storePixels (pixel : ℚ → Option S16) : List ℚ → List S16 → Option (List S16)
  | v :: vec, _ :: data =>
      match pixel v, storePixels pixel vec data with
      | some p, some data => some (p :: data)
      | _, _ => none
  | _, data => some data

theorem length_storePixels {pixel : ℚ → Option S16} {vec : List ℚ} {data data' : List S16}
    (h : storePixels pixel vec data = some data') : data'.length = data.length := by
  induction vec generalizing data data' with
  | nil =>
      cases data with
      | nil => cases h; rfl
      | cons p data => cases h; rfl
  | cons v vec ih =>
      cases data with
      | nil => cases h; rfl
      | cons q data =>
          unfold storePixels at h
          split at h
          · next p rest _ hrest =>
              cases h
              rw [List.length_cons, List.length_cons, ih hrest]
          · cases h

/-! ## Images and matrices -/

/-- A grey image in a packet. -/
@[ext]
structure GreyImage where
  width : Nat
  height : Nat
  data : List S16
  length : data.length = width * height
  packet_lt : 2 * (width * height) + pdpHeaderSize < 2 ^ 31

inductive MatrixType where
  | rfloat
  | cfloat
  | rdouble
  | cdouble

/-- How many numbers an element has. -/
def MatrixType.cells : MatrixType → Nat
  | .rfloat => 1
  | .cfloat => 2
  | .rdouble => 1
  | .cdouble => 2

def MatrixType.size : MatrixType → Nat
  | .rfloat => 4
  | .cfloat => 8
  | .rdouble => 8
  | .cdouble => 16

/-- The packet of a matrix: its elements, and room for a permutation. -/
def MatrixType.packetSize (type : MatrixType) (rows columns : Nat) : Nat :=
  type.size * (columns * rows) + 8 * max rows columns + pdpHeaderSize

/-- A matrix in a packet, the numbers of its elements one after the other. -/
structure ValueMatrix where
  rows : Nat
  columns : Nat
  type : MatrixType
  data : List ℚ
  length : data.length = type.cells * (columns * rows)
  packet_lt : type.packetSize rows columns < 2 ^ 31

theorem length_newImage (w h : Nat) (memory : Nat → S16) :
    ((List.range (w * h)).map memory).length = w * h := by
  rw [List.length_map, List.length_range]

/-- The image of a new packet. -/
def freshImage (w h : Nat) (memory : Nat → S16) (hfit : 2 * (w * h) + pdpHeaderSize < 2 ^ 31) :
    GreyImage :=
  ⟨w, h, (List.range (w * h)).map memory, length_newImage w h memory, hfit⟩

/-- `pdp_packet_new_image_grey`; the memory has some content. -/
def newImageGrey (w h : Nat) (memory : Nat → S16) : Option GreyImage :=
  if hfit : 2 * (w * h) + pdpHeaderSize < 2 ^ 31 then some (freshImage w h memory hfit) else none

/-- An image after a loop that stores pixels. -/
def GreyImage.store (im : GreyImage) (pixel : ℚ → Option S16) (vec : List ℚ) : Option GreyImage :=
  match h : storePixels pixel vec im.data with
  | none => none
  | some data =>
      some ⟨im.width, im.height, data, (length_storePixels h).trans im.length, im.packet_lt⟩

/-- `pdp_array_bang`, for an array with these points. -/
def pdpArrayBang (vec : List ℚ) (width height : Nat) (memory : Nat → S16) : Option GreyImage :=
  let n := min vec.length (width * height)
  (newImageGrey width height memory).bind fun im => im.store arrayPixel (vec.take n)

/-- The pixel that point `i` of the array is taken from, by rows or by columns. -/
def scanIndex (rows : Bool) (im : GreyImage) (i : Nat) : Nat :=
  if rows then i
  else
    let xx := i / im.height
    let yy := i % im.height
    xx + (im.height - yy - 1) * im.width

/-- `pdp_array_input_0`, for a `process` message: the points of the array after it. -/
def pdpArrayInput0 (rows : Bool) (im : GreyImage) (vec : List ℚ) : List ℚ :=
  let n := min vec.length (im.width * im.height)
  ((List.range n).map fun i => pixelValue (im.data.getD (scanIndex rows im i) 0)) ++ vec.drop n

/-- `data[i]`, or `data[i<<1]`, the real part of a complex element. -/
def ValueMatrix.entry (m : ValueMatrix) (i : Nat) : ℚ := m.data.getD (m.type.cells * i) 0

/-- `_pdp_packet_convert_matrix_to_greyimage`. -/
def convertMatrixToGreyimage (m : ValueMatrix) (memory : Nat → S16) : Option GreyImage :=
  let c := m.columns
  let r := m.rows
  let nbelements := c * r
  (newImageGrey c r memory).bind fun im =>
    im.store matrixPixel ((List.range nbelements).map m.entry)

/-- The numbers of an element: a complex one has an imaginary part of zero. -/
def MatrixType.element (type : MatrixType) (p : S16) : List ℚ :=
  match type with
  | .rfloat => [pixelValue p]
  | .cfloat => [pixelValue p, 0]
  | .rdouble => [pixelValue p]
  | .cdouble => [pixelValue p, 0]

theorem MatrixType.length_elements (type : MatrixType) (l : List S16) :
    (l.flatMap type.element).length = type.cells * l.length := by
  have helement : ∀ p, (type.element p).length = type.cells := by
    intro p
    cases type <;> rfl
  induction l with
  | nil => rfl
  | cons p l ih =>
      rw [List.flatMap_cons, List.length_append, ih, helement, List.length_cons, Nat.mul_succ,
        Nat.add_comm]

/-- `_pdp_packet_convert_image_to_matrix`, for a grey image.  `pdp_packet_new_matrix` makes no
matrix without elements. -/
def convertImageToMatrix (im : GreyImage) (type : MatrixType) : Option ValueMatrix :=
  if hfit : 0 < im.width * im.height ∧ type.packetSize im.height im.width < 2 ^ 31 then
    some ⟨im.height, im.width, type, im.data.flatMap type.element,
      (type.length_elements im.data).trans (congrArg (type.cells * ·) im.length), hfit.2⟩
  else none

/-! ## What should be -/

def saturated (v : ℚ) : Int := min 32767 (max (-32768) (truncate (32768 * v)))

/-- The pixels are those of the values, as far as there are some. -/
def ArePixels (vec : List ℚ) (data : List S16) : Prop :=
  ∀ i v, i < data.length → vec[i]? = some v → ∃ p, data[i]? = some p ∧ p.toInt = saturated v

/-- There is an image of these dimensions with the pixels of the values. -/
def HasPixels (w h : Nat) (vec : List ℚ) (result : Option GreyImage) : Prop :=
  ∃ im, result = some im ∧ im.width = w ∧ im.height = h ∧ ArePixels vec im.data

/-- The value is not the one next to the largest pixel, and fits an `int`. -/
def ArrayFits (v : ℚ) : Prop :=
  truncate (32768 * v) ≠ 32768 ∧ -2 ^ 31 ≤ truncate (32768 * v) ∧ truncate (32768 * v) < 2 ^ 31

/-- The value fits an `s16`. -/
def MatrixFits (v : ℚ) : Prop :=
  -32768 ≤ truncate (32768 * v) ∧ truncate (32768 * v) ≤ 32767

/-- Read by columns, from the bottom, the image is what it is by rows. -/
def OwnColumns (im : GreyImage) : Prop :=
  ∀ i < im.width * im.height, im.data.getD (scanIndex false im i) 0 = im.data.getD i 0

/-! ## Single pixels -/

section Pixels

variable {v : ℚ} {p : S16} {n : Int}

theorem truncate_intCast (n : Int) : truncate n = n := by
  unfold truncate
  split
  · exact Int.ceil_intCast n
  · exact Int.floor_intCast n

theorem truncate_mono : Monotone truncate := by
  intro x y hxy
  unfold truncate
  split
  · split
    · exact Int.ceil_mono hxy
    · next hx hy =>
        have hx0 : ⌈x⌉ ≤ 0 := Int.ceil_le.mpr (by exact_mod_cast hx.le)
        have hy0 : 0 ≤ ⌊y⌋ := Int.floor_nonneg.mpr (not_lt.mp hy)
        exact hx0.trans hy0
  · split
    · next hx hy => exact absurd (hxy.trans_lt hy) hx
    · exact Int.floor_mono hxy

theorem saturated_mono : Monotone saturated := by
  intro v w hvw
  have hscaled : (32768 : ℚ) * v ≤ 32768 * w := by linarith
  have htruncate := truncate_mono hscaled
  unfold saturated
  omega

theorem toInt_s16 (hlo : -32768 ≤ n) (hhi : n ≤ 32767) : (toS16 n).toInt = n := by
  unfold toS16
  rw [BitVec.toInt_ofInt]
  exact Int.bmod_eq_of_le (by omega) (by omega)

theorem arrayPixel_right : (∃ p, arrayPixel v = some p ∧ p.toInt = saturated v) ↔ ArrayFits v := by
  unfold arrayPixel intOf saturated ArrayFits
  dsimp only
  rw [mul_comm v]
  generalize truncate (32768 * v) = t
  by_cases hint : -2 ^ 31 ≤ t ∧ t < 2 ^ 31
  · rw [if_pos hint]
    simp only [Option.some.injEq, exists_eq_left']
    by_cases hlimit : t = 32768
    · subst hlimit
      exact iff_of_false (by decide) fun h => h.1 rfl
    · refine iff_of_true ?_ ⟨hlimit, hint⟩
      split
      · rw [if_neg (by omega), toInt_s16 (by omega) (by omega)]
        omega
      · split
        · rw [toInt_s16 (by omega) (by omega)]
          omega
        · rw [toInt_s16 (by omega) (by omega)]
          omega
  · rw [if_neg hint]
    refine iff_of_false ?_ fun h => hint h.2
    rintro ⟨p, hp, _⟩
    cases hp

theorem matrixPixel_right :
    (∃ p, matrixPixel v = some p ∧ p.toInt = saturated v) ↔ MatrixFits v := by
  unfold matrixPixel s16Of saturated MatrixFits
  rw [mul_comm v]
  generalize truncate (32768 * v) = t
  by_cases hfits : -2 ^ 15 ≤ t ∧ t < 2 ^ 15
  · rw [if_pos hfits]
    refine iff_of_true ⟨_, rfl, ?_⟩ (by omega)
    rw [toInt_s16 (by omega) (by omega)]
    omega
  · rw [if_neg hfits]
    refine iff_of_false ?_ (by omega)
    rintro ⟨p, hp, _⟩
    cases hp

theorem truncate_pixelValue : truncate (32768 * pixelValue p) = p.toInt := by
  have hvalue : (32768 : ℚ) * pixelValue p = p.toInt := by
    unfold pixelValue
    ring
  rw [hvalue, truncate_intCast]

theorem toInt_bounds (p : S16) : -32768 ≤ p.toInt ∧ p.toInt ≤ 32767 := by
  have hlo := BitVec.le_toInt p
  have hhi := @BitVec.toInt_lt 16 p
  omega

theorem saturated_pixelValue : saturated (pixelValue p) = p.toInt := by
  have hbounds := toInt_bounds p
  unfold saturated
  rw [truncate_pixelValue]
  omega

theorem arrayPixel_pixelValue : arrayPixel (pixelValue p) = some p := by
  have hbounds := toInt_bounds p
  have hfits : ArrayFits (pixelValue p) := by
    unfold ArrayFits
    rw [truncate_pixelValue]
    omega
  obtain ⟨q, hq, hint⟩ := arrayPixel_right.mpr hfits
  rw [hq, BitVec.eq_of_toInt_eq (hint.trans saturated_pixelValue)]

theorem matrixPixel_pixelValue : matrixPixel (pixelValue p) = some p := by
  have hbounds := toInt_bounds p
  have hfits : MatrixFits (pixelValue p) := by
    unfold MatrixFits
    rw [truncate_pixelValue]
    exact hbounds
  obtain ⟨q, hq, hint⟩ := matrixPixel_right.mpr hfits
  rw [hq, BitVec.eq_of_toInt_eq (hint.trans saturated_pixelValue)]

end Pixels

/-! ## The loops -/

section Loops

variable {pixel : ℚ → Option S16} {Fits : ℚ → Prop} {vec : List ℚ} {data : List S16} {v : ℚ}
  {p : S16} {im : GreyImage} {l : List S16}

theorem arePixels_cons : ArePixels (v :: vec) (p :: data) ↔
    p.toInt = saturated v ∧ ArePixels vec data := by
  constructor
  · intro h
    obtain ⟨q, hq, hint⟩ := h 0 v (Nat.succ_pos _) rfl
    obtain rfl := Option.some.inj hq
    exact ⟨hint, fun i w hi hw => h (i + 1) w (Nat.succ_lt_succ hi) hw⟩
  · rintro ⟨hint, h⟩ i w hi hw
    cases i with
    | zero =>
        obtain rfl := Option.some.inj hw
        exact ⟨p, rfl, hint⟩
    | succ i => exact h i w (Nat.lt_of_succ_lt_succ hi) hw

/-- The loop makes the pixels if each value that it comes to fits. -/
theorem storePixels_right (hpixel : ∀ v, (∃ p, pixel v = some p ∧ p.toInt = saturated v) ↔ Fits v) :
    (∃ data', storePixels pixel vec data = some data' ∧ ArePixels vec data') ↔
      ∀ v ∈ vec.take data.length, Fits v := by
  induction vec generalizing data with
  | nil =>
      refine iff_of_true ⟨data, ?_, fun i w _ hw => by cases hw⟩ ?_
      · cases data <;> rfl
      · rw [List.take_nil]
        exact fun v hv => absurd hv List.not_mem_nil
  | cons v vec ih =>
      cases data with
      | nil =>
          refine iff_of_true ⟨[], rfl, fun i w hi _ => absurd hi (Nat.not_lt_zero i)⟩ ?_
          exact fun v hv => absurd hv List.not_mem_nil
      | cons q data =>
          rw [List.length_cons, List.take_succ_cons, List.forall_mem_cons, ← hpixel v, ← ih]
          constructor
          · rintro ⟨data', hstore, hpixels⟩
            unfold storePixels at hstore
            split at hstore
            · next p rest hp hrest =>
                cases hstore
                obtain ⟨hint, htail⟩ := arePixels_cons.mp hpixels
                exact ⟨⟨p, hp, hint⟩, rest, hrest, htail⟩
            · cases hstore
          · rintro ⟨⟨p, hp, hint⟩, rest, hrest, htail⟩
            refine ⟨p :: rest, ?_, arePixels_cons.mpr ⟨hint, htail⟩⟩
            unfold storePixels
            rw [hp, hrest]

/-- The values behind the last place are not looked at. -/
theorem storePixels_take {n : Nat} (hn : data.length ≤ n ∨ vec.length ≤ n) :
    storePixels pixel (vec.take n) data = storePixels pixel vec data := by
  induction vec generalizing n data with
  | nil => rw [List.take_nil]
  | cons v vec ih =>
      cases data with
      | nil =>
          cases n with
          | zero => rfl
          | succ n => rfl
      | cons q data =>
          cases n with
          | zero =>
              rw [List.length_cons, List.length_cons] at hn
              omega
          | succ n =>
              simp only [List.length_cons, Nat.succ_le_succ_iff] at hn
              rw [List.take_succ_cons, storePixels, storePixels, ih hn]

/-- A loop over the values of some pixels stores these. -/
theorem storePixels_pixelValue (hpixel : ∀ p, pixel (pixelValue p) = some p)
    (hl : l.length ≤ data.length) :
    storePixels pixel (l.map pixelValue) data = some (l ++ data.drop l.length) := by
  induction l generalizing data with
  | nil => cases data <;> rfl
  | cons p l ih =>
      cases data with
      | nil => exact absurd hl (Nat.not_succ_le_zero _)
      | cons q data =>
          rw [List.map_cons, storePixels, hpixel, ih (Nat.le_of_succ_le_succ hl)]
          rfl

theorem store_eq_some {im' : GreyImage} : im.store pixel vec = some im' ↔
    im'.width = im.width ∧ im'.height = im.height ∧
      storePixels pixel vec im.data = some im'.data := by
  unfold GreyImage.store
  split
  · next hnone =>
      rw [hnone]
      refine iff_of_false (fun h => by cases h) ?_
      rintro ⟨_, _, h⟩
      cases h
  · next data hdata =>
      constructor
      · intro heq
        obtain rfl := Option.some.inj heq
        exact ⟨rfl, rfl, hdata⟩
      · rintro ⟨hw, hh, hd⟩
        exact congrArg some (GreyImage.ext hw.symm hh.symm (Option.some.inj (hdata.symm.trans hd)))

theorem hasPixels_store
    (hpixel : ∀ v, (∃ p, pixel v = some p ∧ p.toInt = saturated v) ↔ Fits v) :
    HasPixels im.width im.height vec (im.store pixel vec) ↔
      ∀ v ∈ vec.take im.data.length, Fits v := by
  rw [← storePixels_right hpixel]
  constructor
  · rintro ⟨im', hstore, _, _, hpixels⟩
    exact ⟨im'.data, (store_eq_some.mp hstore).2.2, hpixels⟩
  · rintro ⟨data, hdata, hpixels⟩
    have hlength := (length_storePixels hdata).trans im.length
    exact ⟨⟨im.width, im.height, data, hlength, im.packet_lt⟩, store_eq_some.mpr ⟨rfl, rfl, hdata⟩, rfl, rfl,
      hpixels⟩

end Loops

/-! ## There -/

section There

variable {vec : List ℚ} {w h : Nat} {memory : Nat → S16} {m : ValueMatrix}

theorem newImageGrey_eq (hfit : 2 * (w * h) + pdpHeaderSize < 2 ^ 31) :
    newImageGrey w h memory = some (freshImage w h memory hfit) := dif_pos hfit

theorem pdpArrayBang_eq (hfit : 2 * (w * h) + pdpHeaderSize < 2 ^ 31) :
    pdpArrayBang vec w h memory = (freshImage w h memory hfit).store arrayPixel vec := by
  have hplaces : (freshImage w h memory hfit).data.length ≤ min vec.length (w * h) ∨
      vec.length ≤ min vec.length (w * h) := by
    rw [(freshImage w h memory hfit).length]
    change w * h ≤ _ ∨ _
    omega
  refine Option.ext fun im => ?_
  unfold pdpArrayBang
  rw [newImageGrey_eq hfit, Option.bind_some, store_eq_some, store_eq_some,
    storePixels_take hplaces]

theorem hasPixels_array : HasPixels w h vec (pdpArrayBang vec w h memory) ↔
    2 * (w * h) + pdpHeaderSize < 2 ^ 31 ∧ ∀ v ∈ vec.take (w * h), ArrayFits v := by
  by_cases hfit : 2 * (w * h) + pdpHeaderSize < 2 ^ 31
  · rw [and_iff_right hfit, pdpArrayBang_eq hfit, ← length_newImage w h memory]
    exact @hasPixels_store _ _ vec (freshImage w h memory hfit) fun _ => arrayPixel_right
  · have hnone : pdpArrayBang vec w h memory = none := by
      unfold pdpArrayBang newImageGrey
      rw [dif_neg hfit, Option.bind_none]
    refine iff_of_false (fun hpixels => ?_) fun h => hfit h.1
    obtain ⟨im, him, -⟩ := hpixels
    cases hnone.symm.trans him

/-- A matrix has room for more than the pixels of its elements. -/
theorem ValueMatrix.image_lt (m : ValueMatrix) :
    2 * (m.columns * m.rows) + pdpHeaderSize < 2 ^ 31 := by
  have hpacket := m.packet_lt
  have hsize : 2 * (m.columns * m.rows) ≤ m.type.size * (m.columns * m.rows) := by
    refine Nat.mul_le_mul_right _ ?_
    cases m.type <;> decide
  unfold MatrixType.packetSize at hpacket
  omega

theorem convertMatrixToGreyimage_eq : convertMatrixToGreyimage m memory =
    (freshImage m.columns m.rows memory m.image_lt).store matrixPixel
      ((List.range (m.columns * m.rows)).map m.entry) := by
  unfold convertMatrixToGreyimage
  dsimp only
  rw [newImageGrey_eq m.image_lt, Option.bind_some]

theorem hasPixels_matrix : HasPixels m.columns m.rows
    ((List.range (m.columns * m.rows)).map m.entry) (convertMatrixToGreyimage m memory) ↔
      ∀ i < m.columns * m.rows, MatrixFits (m.entry i) := by
  have hstore := @hasPixels_store _ _ ((List.range (m.columns * m.rows)).map m.entry)
    (freshImage m.columns m.rows memory m.image_lt) fun _ => matrixPixel_right
  rw [(freshImage m.columns m.rows memory m.image_lt).length] at hstore
  rw [convertMatrixToGreyimage_eq]
  refine hstore.trans ?_
  change (∀ v ∈ List.take (m.columns * m.rows) _, MatrixFits v) ↔ _
  rw [List.take_of_length_le (Nat.le_of_eq (by rw [List.length_map, List.length_range])),
    List.forall_mem_map]
  simp only [List.mem_range]

end There

/-! ## There and back -/

section Back

variable {vec : List ℚ} {im : GreyImage} {memory : Nat → S16} {rows : Bool} {type : MatrixType}
  {l : List S16} {n : Nat}

theorem element_getD (p : S16) (rest : List S16) (i : Nat) :
    ((p :: rest).flatMap type.element).getD (type.cells * (i + 1)) 0 =
      (rest.flatMap type.element).getD (type.cells * i) 0 := by
  cases type <;> rfl

/-- The elements that the way back looks at are the values of the pixels. -/
theorem entries_elements : (List.range l.length).map
    (fun i => (l.flatMap type.element).getD (type.cells * i) 0) = l.map pixelValue := by
  induction l with
  | nil => rfl
  | cons p l ih =>
      have hhead : ((p :: l).flatMap type.element).getD (type.cells * 0) 0 = pixelValue p := by
        cases type <;> rfl
      rw [List.length_cons, List.range_succ_eq_map, List.map_cons, List.map_map, hhead,
        List.map_cons, ← ih]
      congr 1
      exact List.map_congr_left fun i _ => element_getD p l i

/-- A matrix made of an image gives the image, of whatever type it is, if there is a packet for
the matrix. -/
theorem matrix_back_iff : (convertImageToMatrix im type).bind
      (fun m => convertMatrixToGreyimage m memory) = some im ↔
    0 < im.width * im.height ∧ type.packetSize im.height im.width < 2 ^ 31 := by
  unfold convertImageToMatrix
  split
  · next hfit =>
      refine iff_of_true ?_ hfit
      obtain ⟨m, hm⟩ : ∃ m : ValueMatrix, m = ⟨im.height, im.width, type,
          im.data.flatMap type.element,
          (type.length_elements im.data).trans (congrArg (type.cells * ·) im.length), hfit.2⟩ :=
        ⟨_, rfl⟩
      have hentries : (List.range (im.width * im.height)).map m.entry =
          im.data.map pixelValue := by
        rw [← im.length, hm]
        exact entries_elements
      have hfresh : freshImage m.columns m.rows memory m.image_lt =
          freshImage im.width im.height memory im.packet_lt := by
        subst hm
        rfl
      have helements : m.columns * m.rows = im.width * im.height := by rw [hm]
      have hplaces : im.data.length =
          (freshImage im.width im.height memory im.packet_lt).data.length :=
        im.length.trans (freshImage im.width im.height memory im.packet_lt).length.symm
      rw [← hm, Option.bind_some, convertMatrixToGreyimage_eq, hfresh, helements, hentries]
      refine store_eq_some.mpr ⟨rfl, rfl, ?_⟩
      rw [storePixels_pixelValue (fun _ => matrixPixel_pixelValue) (Nat.le_of_eq hplaces),
        List.drop_eq_nil_of_le (Nat.le_of_eq hplaces.symm), List.append_nil]
  · next hfit => exact iff_of_false (fun h => by cases h) hfit

/-- The pixels in the order in which the array gets them. -/
def scanned (rows : Bool) (im : GreyImage) (n : Nat) : List S16 :=
  (List.range n).map fun i => im.data.getD (scanIndex rows im i) 0

theorem length_scanned : (scanned rows im n).length = n := by
  unfold scanned
  rw [List.length_map, List.length_range]

/-- What comes back from an array: the scanned pixels, as many as it has points for. -/
theorem array_back_eq :
    storePixels arrayPixel (pdpArrayInput0 rows im vec)
        (freshImage im.width im.height memory im.packet_lt).data =
      some (scanned rows im (min vec.length (im.width * im.height)) ++
        (freshImage im.width im.height memory im.packet_lt).data.drop
          (min vec.length (im.width * im.height))) := by
  have hdata := (freshImage im.width im.height memory im.packet_lt).length
  change _ = im.width * im.height at hdata
  generalize (freshImage im.width im.height memory im.packet_lt).data = data at hdata ⊢
  have hn : min vec.length (im.width * im.height) ≤ data.length := by omega
  have hplaces : data.length ≤ min vec.length (im.width * im.height) ∨
      (pdpArrayInput0 rows im vec).length ≤ min vec.length (im.width * im.height) := by
    unfold pdpArrayInput0
    dsimp only
    rw [List.length_append, List.length_map, List.length_range, List.length_drop]
    omega
  have hscan : (pdpArrayInput0 rows im vec).take (min vec.length (im.width * im.height)) =
      (scanned rows im (min vec.length (im.width * im.height))).map pixelValue := by
    unfold pdpArrayInput0 scanned
    dsimp only
    rw [List.take_left' (by rw [List.length_map, List.length_range]), List.map_map]
    rfl
  rw [← storePixels_take hplaces, hscan, storePixels_pixelValue (fun _ => arrayPixel_pixelValue)
    (by rw [length_scanned]; exact hn), length_scanned]

theorem map_getD_range {α : Type} (l : List α) (d : α) :
    (List.range l.length).map (fun i => l.getD i d) = l := by
  refine List.ext_getElem? fun i => ?_
  rw [List.getElem?_map]
  rcases Nat.lt_or_ge i l.length with hi | hi
  · rw [List.getElem?_range hi, Option.map_some, List.getD_eq_getElem _ _ hi,
      List.getElem?_eq_getElem hi]
  · rw [List.getElem?_eq_none hi, List.getElem?_eq_none, Option.map_none]
    rw [List.length_range]
    exact hi

/-- All pixels in order, if they are read by rows or it makes no difference. -/
theorem scanned_all : scanned rows im (im.width * im.height) = im.data ↔
    rows = true ∨ OwnColumns im := by
  have hself : (List.range (im.width * im.height)).map (fun i => im.data.getD i 0) = im.data := by
    rw [← im.length]
    exact map_getD_range im.data 0
  cases rows with
  | true => exact iff_of_true hself (Or.inl rfl)
  | false =>
      unfold scanned OwnColumns
      refine Iff.trans ?_ (or_iff_right Bool.false_ne_true).symm
      have heq : (List.range (im.width * im.height)).map
            (fun i => im.data.getD (scanIndex false im i) 0) = im.data ↔
          (List.range (im.width * im.height)).map
            (fun i => im.data.getD (scanIndex false im i) 0) =
          (List.range (im.width * im.height)).map (fun i => im.data.getD i 0) := by
        rw [hself]
      rw [heq, List.map_inj_left]
      simp only [List.mem_range]

/-- An image that has been in an array comes back, whatever the memory of the new one has in it, if
and only if the array had a point for each pixel and its order makes no difference. -/
theorem array_back_iff : (∀ memory, pdpArrayBang (pdpArrayInput0 rows im vec) im.width im.height
      memory = some im) ↔
    im.width * im.height ≤ vec.length ∧ (rows = true ∨ OwnColumns im) := by
  have hback : ∀ memory, pdpArrayBang (pdpArrayInput0 rows im vec) im.width im.height memory =
      some im ↔ scanned rows im (min vec.length (im.width * im.height)) ++
        (freshImage im.width im.height memory im.packet_lt).data.drop
          (min vec.length (im.width * im.height)) = im.data := by
    intro memory
    rw [pdpArrayBang_eq im.packet_lt, store_eq_some, array_back_eq, Option.some.injEq]
    exact ⟨fun h => h.2.2, fun h => ⟨rfl, rfl, h⟩⟩
  simp only [hback]
  rcases Nat.lt_or_ge vec.length (im.width * im.height) with hlt | hge
  · refine iff_of_false (fun hall => ?_) fun h => absurd h.1 (by omega)
    -- A place that the array has no point for keeps what the memory had in it.
    have hmin : min vec.length (im.width * im.height) = vec.length := by omega
    have hplace := congrArg (·[vec.length]?)
      (hall fun _ => im.data.getD vec.length 0 + 1)
    rw [hmin, List.getElem?_append_right (Nat.le_of_eq length_scanned), length_scanned,
      Nat.sub_self, List.getElem?_drop, Nat.add_zero] at hplace
    unfold freshImage at hplace
    have hdata : vec.length < im.data.length := by
      rw [im.length]
      exact hlt
    rw [List.getElem?_map, List.getElem?_range hlt, Option.map_some,
      List.getD_eq_getElem _ _ hdata, List.getElem?_eq_getElem hdata] at hplace
    have hne := Option.some.inj hplace
    exact absurd hne (by bv_omega)
  · have hmin : min vec.length (im.width * im.height) = im.width * im.height := by omega
    rw [and_iff_right hge, ← scanned_all]
    have hnil : ∀ memory, (freshImage im.width im.height memory im.packet_lt).data.drop
        (im.width * im.height) = [] := fun memory =>
      List.drop_eq_nil_of_le (Nat.le_of_eq (freshImage im.width im.height memory im.packet_lt).length)
    simp only [hmin, hnil, List.append_nil, forall_const]

end Back

/-! ## The programs -/

/-- Larger values have larger pixels or the same; an array and a matrix give these exactly when each
value that is stored fits and there is a packet; a matrix made of an image gives the image, if there
is a packet for it, and an array does so if it is long enough and its order is that of the rows. -/
theorem values_pixels (vec : List ℚ) (w h : Nat) (m : ValueMatrix) (im : GreyImage)
    (type : MatrixType) (rows : Bool) (memory : Nat → S16) : Monotone saturated ∧
    (HasPixels w h vec (pdpArrayBang vec w h memory) ↔
      2 * (w * h) + pdpHeaderSize < 2 ^ 31 ∧ ∀ v ∈ vec.take (w * h), ArrayFits v) ∧
    (HasPixels m.columns m.rows ((List.range (m.columns * m.rows)).map m.entry)
        (convertMatrixToGreyimage m memory) ↔
      ∀ i < m.columns * m.rows, MatrixFits (m.entry i)) ∧
    ((convertImageToMatrix im type).bind (fun m => convertMatrixToGreyimage m memory) = some im ↔
      0 < im.width * im.height ∧ type.packetSize im.height im.width < 2 ^ 31) ∧
    ((∀ memory', pdpArrayBang (pdpArrayInput0 rows im vec) im.width im.height memory' = some im) ↔
      im.width * im.height ≤ vec.length ∧ (rows = true ∨ OwnColumns im)) :=
  ⟨saturated_mono, hasPixels_array, hasPixels_matrix, matrix_back_iff, array_back_iff⟩

theorem truncate_one : truncate (32768 * 1) = 32768 := by
  have hcast : (32768 : ℚ) * 1 = ((32768 : Int) : ℚ) := by norm_num
  rw [hcast, truncate_intCast]

/-- The value one, which is the first that is too large, becomes the smallest pixel. -/
theorem not_values_pixels :
    arrayPixel 1 = some 0x8000 ∧ ¬ HasPixels 1 1 [1] (pdpArrayBang [1] 1 1 fun _ => 0) := by
  constructor
  · unfold arrayPixel intOf
    dsimp only
    rw [mul_comm, truncate_one]
    rfl
  · intro h
    have hfits := (hasPixels_array.mp h).2 1 (List.mem_singleton.mpr rfl)
    exact hfits.1 truncate_one

end PureDataPacket
