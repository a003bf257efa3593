/-
# `PureDataPacket.Image.Packing` — the multimedia version of the planar conversions

`pixel_pack_s16u8.s`, `pixel_unpack_u8s16.s` and their wrappers in `pdp_llconv_mmx.c`.  The
assembly takes eight pixels at a time, in loops that do not test their counter before the first
round.  It is compared with the plain C of `pdp_llconv_portable.c`.

Both fill the target from its start to its end, so that it is enough to compare the bytes they
make of eight pixels.

| | |
| :-- | :-- |
| `xor_top_byte` | to flip the top bit of a byte is to add it |
| `encode_eq` | the bytes of a word that is the value to store |
| `rounds_blit` | a loop that stores a piece in each round |
| `runSteps_planar` | two loops of plain C, the second behind advanced pointers |
| `unpack_agree` | unpacking, in plain C and in assembly |
| `pack_unpack` | packing an image that was unpacked gives the image back |
-/
import PureDataPacket.Image.Imageproc
import PureDataPacket.Image.Subsampling
import PureDataPacket.Lib.Fill
import PureDataPacket.Lib.Lanes

namespace PureDataPacket

/-! ## Registers and memory -/

def bytesToWord (low high : UInt8) : S16 := BitVec.ofNat 16 (2 ^ 8 * high.toNat + low.toNat)

/-- The low byte of a word. -/
def lowByte (w : S16) : UInt8 := UInt8.ofNat w.toNat

def highByte (w : S16) : UInt8 := UInt8.ofNat (w.toNat / 2 ^ 8)

/-- The word at byte `p`. -/
def wordAt (m : List UInt8) (p : Nat) : S16 := bytesToWord (m.getD p 0) (m.getD (p + 1) 0)

namespace M64

def bytes (x : M64) : List UInt8 :=
  [lowByte x.s0, highByte x.s0, lowByte x.s1, highByte x.s1, lowByte x.s2, highByte x.s2,
    lowByte x.s3, highByte x.s3]

/-- The four words at byte `p`. -/
def wordsAt (m : List UInt8) (p : Nat) : M64 :=
  ⟨wordAt m p, wordAt m (p + 2), wordAt m (p + 4), wordAt m (p + 6)⟩

/-- `movq` from byte `p`. -/
def read (m : List UInt8) (p : Nat) : Option M64 :=
  if p + 8 ≤ m.length then some (M64.wordsAt m p) else none

/-- `movq` to byte `p`. -/
def write (m : List UInt8) (p : Nat) (x : M64) : Option (List UInt8) :=
  if p + 8 ≤ m.length then some (blit m p x.bytes) else none

end M64

/-- `pxor`. -/
def pxor : M64 → M64 → M64 := M64.map₂ fun a b => a ^^^ b

/-- `por`. -/
def por : M64 → M64 → M64 := M64.map₂ fun a b => a ||| b

/-- `pcmpeqw`. -/
def pcmpeqw : M64 → M64 → M64 := M64.map₂ fun a b => if a = b then 0xffff else 0

/-- What `pxor` of a register with itself leaves, whatever was in it. -/
def cleared : M64 := ⟨0, 0, 0, 0⟩

/-- What `pcmpeqw` of a register with itself leaves. -/
def filled : M64 := ⟨0xffff, 0xffff, 0xffff, 0xffff⟩

/-- `psrlw`. -/
def psrlw (n : Nat) : M64 → M64 := M64.map fun a => a >>> n

/-- `psraw`. -/
def psraw (n : Nat) : M64 → M64 := M64.map fun a => a.sshiftRight n

/-- A byte of `packuswb`: the word, saturated. -/
def packusByte (a : S16) : UInt8 := UInt8.ofNat (max 0 (min 255 a.toInt)).toNat

/-- A byte of `packsswb`. -/
def packssByte (a : S16) : UInt8 := UInt8.ofNat (max (-128) (min 127 a.toInt) % 2 ^ 8).toNat

/-- The words of two registers as the bytes of one. -/
def packWith (f : S16 → UInt8) (x y : M64) : M64 :=
  ⟨bytesToWord (f x.s0) (f x.s1), bytesToWord (f x.s2) (f x.s3), bytesToWord (f y.s0) (f y.s1),
    bytesToWord (f y.s2) (f y.s3)⟩

/-- `packuswb`. -/
def packuswb : M64 → M64 → M64 := packWith packusByte

/-- `packsswb`. -/
def packsswb : M64 → M64 → M64 := packWith packssByte

/-- `punpcklbw`: the low bytes of `x`, each followed by one of `y`. -/
def punpcklbw (x y : M64) : M64 :=
  ⟨bytesToWord (lowByte x.s0) (lowByte y.s0), bytesToWord (highByte x.s0) (highByte y.s0),
    bytesToWord (lowByte x.s1) (lowByte y.s1), bytesToWord (highByte x.s1) (highByte y.s1)⟩

/-- `punpckhbw`. -/
def punpckhbw (x y : M64) : M64 :=
  ⟨bytesToWord (lowByte x.s2) (lowByte y.s2), bytesToWord (highByte x.s2) (highByte y.s2),
    bytesToWord (lowByte x.s3) (lowByte y.s3), bytesToWord (highByte x.s3) (highByte y.s3)⟩

/-! ## Assembly -/

namespace Mmx

/-- `pixel_pack_s16u8_y`. -/
def pixelPackS16u8Y (src : List UInt8) (esi edi nb8pixelVectors : Nat) (dst : List UInt8) :
    Option (List UInt8) :=
  rounds (fun i dst => do
    let mm0 ← M64.read src (esi + 16 * i)
    let mm1 ← M64.read src (esi + 16 * i + 8)
    let mm0 := psraw 7 mm0
    let mm1 := psraw 7 mm1
    let mm0 := packuswb mm0 mm1
    M64.write dst (edi + 8 * i) mm0) (loopCount nb8pixelVectors) 0 dst

/-- `pixel_pack_s16u8_uv`. -/
def pixelPackS16u8Uv (src : List UInt8) (esi edi nb8pixelVectors : Nat) (dst : List UInt8) :
    Option (List UInt8) :=
  let mm6 := filled
  let mm6 := psllw 15 mm6
  let mm5 := psrlw 8 mm6
  let mm6 := por mm6 mm5
  rounds (fun i dst => do
    let mm0 ← M64.read src (esi + 16 * i)
    let mm1 ← M64.read src (esi + 16 * i + 8)
    let mm0 := psraw 8 mm0
    let mm1 := psraw 8 mm1
    let mm0 := packsswb mm0 mm1
    let mm0 := pxor mm0 mm6
    M64.write dst (edi + 8 * i) mm0) (loopCount nb8pixelVectors) 0 dst

/-- `pixel_unpack_u8s16_y`. -/
def pixelUnpackU8s16Y (src : List UInt8) (esi edi nbPixelsDiv8 : Nat) (dst : List UInt8) :
    Option (List UInt8) :=
  rounds (fun i dst => do
    let mm5 ← M64.read src (esi + 8 * i)
    let mm0 := punpcklbw cleared mm5
    let mm1 := punpckhbw cleared mm5
    let mm0 := psrlw 1 mm0
    let mm1 := psrlw 1 mm1
    let dst ← M64.write dst (edi + 16 * i) mm0
    M64.write dst (edi + 16 * i + 8) mm1) (loopCount nbPixelsDiv8) 0 dst

/-- `pixel_unpack_u8s16_uv`. -/
def pixelUnpackU8s16Uv (src : List UInt8) (esi edi nbPixelsDiv8 : Nat) (dst : List UInt8) :
    Option (List UInt8) :=
  let mm6 := filled
  let mm6 := psllw 15 mm6
  rounds (fun i dst => do
    let mm5 ← M64.read src (esi + 8 * i)
    let mm0 := punpcklbw cleared mm5
    let mm1 := punpckhbw cleared mm5
    let mm0 := pxor mm0 mm6
    let mm1 := pxor mm1 mm6
    let dst ← M64.write dst (edi + 16 * i) mm0
    M64.write dst (edi + 16 * i + 8) mm1) (loopCount nbPixelsDiv8) 0 dst

/-- `llconv_yvu_planar_s16u8`. -/
def llconvYvuPlanarS16u8 (nbpixels : Nat) (src dst : List UInt8) : Option (List UInt8) := do
  let dst ← pixelPackS16u8Y src 0 0 (nbpixels / 2 ^ 3) dst
  pixelPackS16u8Uv src (2 * nbpixels) nbpixels (nbpixels / 2 ^ 4) dst

/-- `llconv_yvu_planar_u8s16`, for an `int nbpixels` that is not negative. -/
def llconvYvuPlanarU8s16 (nbpixels : Nat) (source dest : List UInt8) : Option (List UInt8) := do
  let dest ← pixelUnpackU8s16Y source 0 0 (nbpixels / 2 ^ 3) dest
  pixelUnpackU8s16Uv source nbpixels (2 * nbpixels) (nbpixels / 2 ^ 4) dest

/-- `llconv_yuv_planar_u8s16`, for an `int nbpixels` that is not negative. -/
def llconvYuvPlanarU8s16 (nbpixels : Nat) (source dest : List UInt8) : Option (List UInt8) := do
  let dest ← pixelUnpackU8s16Y source 0 0 (nbpixels / 2 ^ 3) dest
  let dest ← pixelUnpackU8s16Uv source nbpixels (2 * (nbpixels + nbpixels / 2 ^ 2))
    (nbpixels / 2 ^ 5) dest
  pixelUnpackU8s16Uv source (nbpixels + nbpixels / 2 ^ 2) (2 * nbpixels) (nbpixels / 2 ^ 5) dest

end Mmx

/-- `llconv_yuv_planar_u8s16`, in plain C: the chroma planes change places. -/
def llconvYuvPlanarU8s16 (nbpixels : Int) : List Step :=
  pixelUnpackU8s16Y (ofInt32 nbpixels) ++
    (pixelUnpackU8s16Uv (ofInt32 (nbpixels / 2 ^ 2))).map
      (.shift nbpixels (nbpixels + nbpixels / 2 ^ 2)) ++
    (pixelUnpackU8s16Uv (ofInt32 (nbpixels / 2 ^ 2))).map
      (.shift (nbpixels + nbpixels / 2 ^ 2) nbpixels)

/-! ## Bytes and words -/

section Words

variable {x y : UInt8} {w : S16} {n : Nat}

theorem toNat_bytesToWord (x y : UInt8) :
    (bytesToWord x y).toNat = 2 ^ 8 * y.toNat + x.toNat := by
  have hx := x.toNat_lt
  have hy := y.toNat_lt
  unfold bytesToWord
  rw [BitVec.toNat_ofNat, Nat.mod_eq_of_lt (by omega)]

@[simp] theorem lowByte_bytesToWord : lowByte (bytesToWord x y) = x := by
  have hx := x.toNat_lt
  refine UInt8.toNat_inj.mp ?_
  unfold lowByte
  rw [toNat_bytesToWord, UInt8.toNat_ofNat']
  omega

@[simp] theorem highByte_bytesToWord : highByte (bytesToWord x y) = y := by
  have hx := x.toNat_lt
  have hy := y.toNat_lt
  refine UInt8.toNat_inj.mp ?_
  unfold highByte
  rw [toNat_bytesToWord, UInt8.toNat_ofNat']
  omega

theorem toInt_bytesToWord (x y : UInt8) : (bytesToWord x y).toInt = s16.decode [x, y] := by
  rw [BitVec.toInt_eq_toNat_bmod, toNat_bytesToWord, Format.decode_s16, Nat.add_comm]

theorem bytes_packWith {f : S16 → UInt8} {x y : M64} : (packWith f x y).bytes =
    [f x.s0, f x.s1, f x.s2, f x.s3, f y.s0, f y.s1, f y.s2, f y.s3] := by
  simp only [packWith, M64.bytes, lowByte_bytesToWord, highByte_bytesToWord]

/-- `psraw` divides. -/
theorem toInt_sshiftRight (w : S16) (n : Nat) : (w.sshiftRight n).toInt = w.toInt / 2 ^ n := by
  rw [BitVec.toInt_sshiftRight, Int.shiftRight_eq_div_pow]
  norm_num

theorem packusByte_eq (w : S16) :
    u8.encode (clamp8 (w.toInt / 2 ^ 7)) = [packusByte (w.sshiftRight 7)] := by
  have hclamp : ∀ v : Int, clamp8 v % 2 ^ 8 = max 0 (min 255 v) := by
    intro v
    unfold clamp8
    split
    · omega
    · split <;> omega
  show [UInt8.ofNat (clamp8 (w.toInt / 2 ^ 7) % 2 ^ 8).toNat] = _
  unfold packusByte
  rw [hclamp, toInt_sshiftRight]

theorem xor_top_byte (x : UInt8) : x ^^^ 0x80 = UInt8.ofNat (x.toNat + 2 ^ 7) := by
  have h := xor_top (i := 7) x.toNat_lt
  refine UInt8.toNat_inj.mp ?_
  rw [UInt8.toNat_xor, UInt8.toNat_ofNat']
  exact h

/-- A word with the top bits of its bytes flipped. -/
theorem bytes_xor (w : S16) : lowByte (w ^^^ 0x8080) = lowByte w ^^^ 0x80 ∧
    highByte (w ^^^ 0x8080) = highByte w ^^^ 0x80 := by
  have hw := w.isLt
  have h := xor_lanes (i := 8) (y := w.toNat / 2 ^ 8) (n := 0x80)
    (Nat.mod_lt w.toNat (by decide)) (show 0x80 < 2 ^ 8 by decide)
  rw [Nat.div_add_mod] at h
  have hlow := Nat.xor_lt_two_pow (Nat.mod_lt w.toNat (show 0 < 2 ^ 8 by decide))
    (show 0x80 < 2 ^ 8 by decide)
  have hxor : (w ^^^ 0x8080).toNat =
      2 ^ 8 * (w.toNat / 2 ^ 8 ^^^ 0x80) + (w.toNat % 2 ^ 8 ^^^ 0x80) := by
    rw [BitVec.toNat_xor, ← h]
    rfl
  constructor
  · refine UInt8.toNat_inj.mp ?_
    unfold lowByte
    rw [hxor, UInt8.toNat_xor, UInt8.toNat_ofNat', UInt8.toNat_ofNat', Nat.mul_add_mod,
      Nat.mod_eq_of_lt hlow]
    rfl
  · refine UInt8.toNat_inj.mp ?_
    unfold highByte
    rw [hxor, UInt8.toNat_xor, UInt8.toNat_ofNat', UInt8.toNat_ofNat',
      Nat.mul_add_div (by decide), Nat.div_eq_of_lt hlow, Nat.add_zero,
      Nat.mod_eq_of_lt (show w.toNat / 2 ^ 8 < 2 ^ 8 by omega)]
    exact Nat.mod_eq_of_lt (Nat.xor_lt_two_pow (n := 8) (by omega) (by decide))

theorem packssByte_eq (w : S16) : u8.encode ((w.toInt + 2 ^ 15) % 2 ^ 16 / 2 ^ 8) =
    [packssByte (w.sshiftRight 8) ^^^ 0x80] := by
  have hlo := w.le_toInt
  have hhi := w.toInt_lt
  show [UInt8.ofNat ((w.toInt + 2 ^ 15) % 2 ^ 16 / 2 ^ 8 % 2 ^ 8).toNat] = _
  unfold packssByte
  rw [toInt_sshiftRight, xor_top_byte, UInt8.toNat_ofNat']
  congr 1
  refine UInt8.toNat_inj.mp ?_
  rw [UInt8.toNat_ofNat', UInt8.toNat_ofNat']
  omega

theorem flips : psllw 15 filled = ⟨0x8000, 0x8000, 0x8000, 0x8000⟩ ∧
    por (psllw 15 filled) (psrlw 8 (psllw 15 filled)) = ⟨0x8080, 0x8080, 0x8080, 0x8080⟩ := by
  decide

theorem encode_eq {v : Int} (h : v % 2 ^ 16 = w.toNat) :
    s16.encode v = [lowByte w, highByte w] := by
  rw [Format.encode_s16, h, Int.toNat_natCast]
  rfl

/-- A byte above a cleared one, shifted right by one. -/
theorem unpackY_eq (x : UInt8) : s16.encode (x.toNat * 2 ^ 7) =
    [lowByte (bytesToWord 0 x >>> 1), highByte (bytesToWord 0 x >>> 1)] := by
  have hx := x.toNat_lt
  refine encode_eq ?_
  have hzero : (0 : UInt8).toNat = 0 := rfl
  rw [BitVec.toNat_ushiftRight, toNat_bytesToWord, Nat.shiftRight_eq_div_pow, hzero]
  omega

/-- A byte above a cleared one, with the top bit flipped. -/
theorem unpackUv_eq (x : UInt8) : s16.encode ((x.toNat * 2 ^ 8 + 2 ^ 15) % 2 ^ 16) =
    [lowByte (bytesToWord 0 x ^^^ 0x8000), highByte (bytesToWord 0 x ^^^ 0x8000)] := by
  have hx := x.toNat_lt
  refine encode_eq ?_
  have hzero : (0 : UInt8).toNat = 0 := rfl
  have h := xor_top (i := 15) (bytesToWord 0 x).isLt
  rw [toNat_bytesToWord, hzero] at h
  have htop : (0x8000 : S16).toNat = 2 ^ 15 := rfl
  rw [BitVec.toNat_xor, htop, toNat_bytesToWord, hzero, h]
  omega

end Words

/-! ## Loops -/

section Loops

variable {body : Nat → List UInt8 → Option (List UInt8)} {c off count n : Nat}
  {g : Nat → List UInt8} {s : List UInt8}

theorem rounds_blit (hbody : ∀ i < count, ∀ s, s.length = n →
      body i s = some (blit s (off + c * i) (g i)))
    (hg : ∀ i < count, (g i).length = c) (hlen : off + c * count ≤ n) (hs : s.length = n) :
    rounds body count 0 s = some (blit s off ((List.range count).flatMap g)) := by
  suffices h : ∀ k i : Nat, i + k ≤ count → ∀ s : List UInt8, s.length = n →
      rounds body k i s =
        some (blit s (off + c * i) ((List.range k).flatMap fun j => g (i + j))) by
    have h0 := h count 0 (by omega) s hs
    simp only [Nat.zero_add] at h0
    exact h0
  intro k
  induction k with
  | zero =>
      intro i _ s _
      rw [List.range_zero, List.flatMap_nil, blit_nil]
      rfl
  | succ k ih =>
      intro i hi s hs
      have hle : c * (i + 1) + c * k ≤ c * count := by
        rw [← Nat.mul_add]
        exact Nat.mul_le_mul_left c (by omega)
      rw [Nat.mul_succ] at hle
      have hgi := hg i (by omega)
      have hlenb : (blit s (off + c * i) (g i)).length = n := by
        rw [length_blit (by omega), hs]
      have hpieces : ((List.range k).flatMap fun j => g (i + 1 + j)).length = c * k := by
        rw [List.length_flatMap, List.map_congr_left (g := fun _ => c) fun j hj =>
          hg _ (by have := List.mem_range.mp hj; omega)]
        simp only [List.map_const', List.length_range, List.sum_replicate, smul_eq_mul]
        exact Nat.mul_comm k c
      have hsplit : ((List.range (k + 1)).flatMap fun j => g (i + j)) =
          g i ++ (List.range k).flatMap fun j => g (i + 1 + j) := by
        rw [List.range_succ_eq_map, List.flatMap_cons, List.flatMap_map]
        simp only [Nat.add_zero, Nat.succ_eq_add_one, Nat.add_assoc, Nat.add_comm 1]
      rw [rounds, hbody i (by omega) s hs, Option.bind_some, ih (i + 1) (by omega) _ hlenb, hsplit,
        ← blit_append (by omega), hgi, Nat.mul_succ, ← Nat.add_assoc]

theorem loopCount_eq (h0 : 0 < count) (h1 : count < 2 ^ 32) : Mmx.loopCount count = count := by
  unfold Mmx.loopCount
  omega

end Loops

/-! ## Eight pixels at a time -/

section Pieces

variable {src dst : List UInt8} {x y count : Nat}

theorem eight (e : Nat → List UInt8) : (List.range 8).flatMap e =
    e 0 ++ (e 1 ++ (e 2 ++ (e 3 ++ (e 4 ++ (e 5 ++ (e 6 ++ (e 7 ++ []))))))) := rfl

/-- Eight elements of one byte each, made of the words at `p`. -/
theorem eight_packed {e : Nat → List UInt8} {f : S16 → UInt8} {p : Nat}
    (h : ∀ k < 8, e k = [f (wordAt src (p + 2 * k))]) :
    (List.range 8).flatMap e = (packWith f (.wordsAt src p) (.wordsAt src (p + 8))).bytes := by
  rw [eight, h 0 (by decide), h 1 (by decide), h 2 (by decide), h 3 (by decide),
    h 4 (by decide), h 5 (by decide), h 6 (by decide), h 7 (by decide), bytes_packWith]
  rfl

/-- Eight elements of two bytes each, made of the bytes at `p`. -/
theorem eight_unpacked {e : Nat → List UInt8} {f : S16 → S16} {p : Nat}
    (h : ∀ k < 8, e k = [lowByte (f (bytesToWord 0 (src.getD (p + k) 0))),
      highByte (f (bytesToWord 0 (src.getD (p + k) 0)))]) :
    (List.range 8).flatMap e = ((punpcklbw cleared (.wordsAt src p)).map f).bytes ++
      ((punpckhbw cleared (.wordsAt src p)).map f).bytes := by
  rw [eight, h 0 (by decide), h 1 (by decide), h 2 (by decide), h 3 (by decide),
    h 4 (by decide), h 5 (by decide), h 6 (by decide), h 7 (by decide)]
  simp only [punpcklbw, punpckhbw, M64.wordsAt, M64.map, M64.bytes, wordAt, lowByte_bytesToWord,
    highByte_bytesToWord]
  rfl

theorem bytes_pxor (m : M64) : (pxor m ⟨0x8080, 0x8080, 0x8080, 0x8080⟩).bytes =
    m.bytes.map fun b => b ^^^ 0x80 := by
  simp only [pxor, M64.map₂, M64.bytes, bytes_xor, List.map_cons, List.map_nil]

theorem s16_load_word {k : Nat} (h : 2 * k + 2 ≤ src.length) :
    s16.load src k = (wordAt src (2 * k)).toInt := by
  rw [s16_load h, wordAt, toInt_bytesToWord, Format.decode_s16]

theorem read_eq {p : Nat} (h : p + 8 ≤ src.length) : M64.read src p = some (.wordsAt src p) :=
  if_pos h

theorem write_eq {p : Nat} {m : M64} (h : p + 8 ≤ dst.length) :
    M64.write dst p m = some (blit dst p m.bytes) := if_pos h

theorem mapped_pieces {source target : Format} {f : Int → Int} :
    mapped source target (8 * count) x f src = (List.range count).flatMap fun i =>
      (List.range 8).flatMap fun k =>
        target.encode (f (source.load src (x + (8 * i + k) : Nat))) :=
  flatMap_range_mul 8 count _

theorem pixelPackS16u8Y_eq (h0 : 0 < count) (h1 : count < 2 ^ 32)
    (hsrc : 2 * (x + 8 * count) ≤ src.length) (hdst : y + 8 * count ≤ dst.length) :
    Mmx.pixelPackS16u8Y src (2 * x) y count dst =
      some (blit dst y (mapped s16 u8 (8 * count) x (fun v => clamp8 (v / 2 ^ 7)) src)) := by
  have hpiece : ∀ i < count, ((List.range 8).flatMap fun k =>
      u8.encode (clamp8 (s16.load src (x + (8 * i + k) : Nat) / 2 ^ 7))) =
        (packuswb (psraw 7 (.wordsAt src (2 * x + 16 * i)))
          (psraw 7 (.wordsAt src (2 * x + 16 * i + 8)))).bytes := by
    intro i hi
    refine eight_packed (f := fun w => packusByte (w.sshiftRight 7)) fun k hk => ?_
    rw [s16_load_word (by omega), packusByte_eq,
      show 2 * (x + (8 * i + k)) = 2 * x + 16 * i + 2 * k by omega]
  unfold Mmx.pixelPackS16u8Y
  rw [loopCount_eq h0 h1, mapped_pieces]
  refine rounds_blit (n := dst.length) (c := 8) (fun i hi s hs => ?_) (fun i hi => ?_) hdst rfl
  · rw [read_eq (by omega), read_eq (by omega), hpiece i hi]
    exact write_eq (by omega)
  · rw [hpiece i hi]
    rfl

theorem pixelPackS16u8Uv_eq (h0 : 0 < count) (h1 : count < 2 ^ 32)
    (hsrc : 2 * (x + 8 * count) ≤ src.length) (hdst : y + 8 * count ≤ dst.length) :
    Mmx.pixelPackS16u8Uv src (2 * x) y count dst =
      some (blit dst y
        (mapped s16 u8 (8 * count) x (fun v => (v + 2 ^ 15) % 2 ^ 16 / 2 ^ 8) src)) := by
  have hpiece : ∀ i < count, ((List.range 8).flatMap fun k =>
      u8.encode ((s16.load src (x + (8 * i + k) : Nat) + 2 ^ 15) % 2 ^ 16 / 2 ^ 8)) =
        (pxor (packsswb (psraw 8 (.wordsAt src (2 * x + 16 * i)))
          (psraw 8 (.wordsAt src (2 * x + 16 * i + 8))))
          ⟨0x8080, 0x8080, 0x8080, 0x8080⟩).bytes := by
    intro i hi
    refine (@eight_packed src _ (fun w => packssByte (w.sshiftRight 8) ^^^ 0x80)
      (2 * x + 16 * i) fun k hk => ?_).trans ?_
    · rw [s16_load_word (by omega), packssByte_eq,
        show 2 * (x + (8 * i + k)) = 2 * x + 16 * i + 2 * k by omega]
    · rw [bytes_pxor, bytes_packWith, packsswb, bytes_packWith]
      rfl
  unfold Mmx.pixelPackS16u8Uv
  dsimp only
  rw [loopCount_eq h0 h1, mapped_pieces, flips.2]
  refine rounds_blit (n := dst.length) (c := 8) (fun i hi s hs => ?_) (fun i hi => ?_) hdst rfl
  · rw [read_eq (by omega), read_eq (by omega), hpiece i hi]
    exact write_eq (by omega)
  · rw [hpiece i hi]
    rfl

theorem write_twice {p : Nat} {m m' : M64} (h : p + 16 ≤ dst.length) :
    ((M64.write dst p m).bind fun dst => M64.write dst (p + 8) m') =
      some (blit dst p (m.bytes ++ m'.bytes)) := by
  have hlen : (blit dst p m.bytes).length = dst.length := by
    refine length_blit ?_
    show p + 8 ≤ dst.length
    omega
  rw [write_eq (by omega), Option.bind_some, write_eq (by omega)]
  exact congrArg some (blit_append h)

/-- The two routines that unpack differ in what they do with four words. -/
theorem unpack_eq {f : S16 → S16} {F : Int → Int} (h0 : 0 < count) (h1 : count < 2 ^ 32)
    (hf : ∀ b : UInt8, s16.encode (F b.toNat) =
      [lowByte (f (bytesToWord 0 b)), highByte (f (bytesToWord 0 b))])
    (hsrc : x + 8 * count ≤ src.length) (hdst : 2 * (y + 8 * count) ≤ dst.length) :
    rounds (fun i dst => (M64.read src (x + 8 * i)).bind fun mm5 =>
      (M64.write dst (2 * y + 16 * i) ((punpcklbw cleared mm5).map f)).bind fun dst =>
        M64.write dst (2 * y + 16 * i + 8) ((punpckhbw cleared mm5).map f))
      (Mmx.loopCount count) 0 dst =
        some (blit dst (2 * y) (mapped u8 s16 (8 * count) x F src)) := by
  have hpiece : ∀ i < count, ((List.range 8).flatMap fun k =>
      s16.encode (F (u8.load src (x + (8 * i + k) : Nat)))) =
        ((punpcklbw cleared (.wordsAt src (x + 8 * i))).map f).bytes ++
          ((punpckhbw cleared (.wordsAt src (x + 8 * i))).map f).bytes := by
    intro i hi
    refine eight_unpacked fun k hk => ?_
    rw [u8_load, hf, Nat.add_assoc]
  rw [loopCount_eq h0 h1, mapped_pieces]
  refine rounds_blit (n := dst.length) (c := 16) (fun i hi s hs => ?_) (fun i hi => ?_)
    (by omega) rfl
  · rw [read_eq (by omega), Option.bind_some, write_twice (by omega), hpiece i hi]
  · rw [hpiece i hi]
    rfl

theorem pixelUnpackU8s16Y_eq (h0 : 0 < count) (h1 : count < 2 ^ 32)
    (hsrc : x + 8 * count ≤ src.length) (hdst : 2 * (y + 8 * count) ≤ dst.length) :
    Mmx.pixelUnpackU8s16Y src x (2 * y) count dst =
      some (blit dst (2 * y) (mapped u8 s16 (8 * count) x (fun v => v * 2 ^ 7) src)) :=
  unpack_eq (f := fun w => w >>> 1) h0 h1 unpackY_eq hsrc hdst

theorem pixelUnpackU8s16Uv_eq (h0 : 0 < count) (h1 : count < 2 ^ 32)
    (hsrc : x + 8 * count ≤ src.length) (hdst : 2 * (y + 8 * count) ≤ dst.length) :
    Mmx.pixelUnpackU8s16Uv src x (2 * y) count dst =
      some (blit dst (2 * y)
        (mapped u8 s16 (8 * count) x (fun v => (v * 2 ^ 8 + 2 ^ 15) % 2 ^ 16) src)) := by
  unfold Mmx.pixelUnpackU8s16Uv
  dsimp only
  rw [flips.1]
  exact unpack_eq (f := fun w => w ^^^ 0x8000) h0 h1 unpackUv_eq hsrc hdst

end Pieces

/-! ## Both versions -/

section Versions

variable {src dst : List UInt8} {n m x y : Nat} {source target : Format}
  {f g : Int → Int}

theorem runSteps_planar (hsrc : source.size * n ≤ src.length ∧ source.size * (x + m) ≤ src.length)
    (hdst : target.size * n ≤ dst.length ∧ target.size * (y + m) ≤ dst.length) :
    runSteps src (mapSteps source target n f ++ (mapSteps source target m g).map (.shift x y)) dst =
      some (blit (blit dst 0 (mapped source target n 0 f src)) (target.size * y)
        (mapped source target m x g src)) := by
  have hfirst := @runSteps_mapSteps source target n 0 0 f src dst
    (by rw [Nat.zero_add]; exact hsrc.1)
    (by rw [Nat.zero_add]; exact hdst.1)
  rw [Nat.cast_zero, map_shift_zero, Nat.mul_zero] at hfirst
  have hlen := length_runSteps hfirst
  rw [runSteps_append, hfirst, Option.bind_some, runSteps_mapSteps hsrc.2 (by omega)]

/-- What packing makes of an image. -/
def packedImage (n : Nat) (src dst : List UInt8) : List UInt8 :=
  blit (blit dst 0 (mapped s16 u8 n 0 (fun v => clamp8 (v / 2 ^ 7)) src)) n
    (mapped s16 u8 (n / 2) n (fun v => (v + 2 ^ 15) % 2 ^ 16 / 2 ^ 8) src)

theorem runSteps_pack (hsrc : src.length = 2 * (n + n / 2)) (hdst : dst.length = n + n / 2) :
    runSteps src (llconvYvuPlanarS16u8 n) dst = some (packedImage n src dst) := by
  have hsize : u8.size * n = n := Nat.one_mul n
  have h := @runSteps_planar src dst n (n / 2) n n s16 u8 (fun v => clamp8 (v / 2 ^ 7))
    (fun v => (v + 2 ^ 15) % 2 ^ 16 / 2 ^ 8)
    ⟨by show 2 * n ≤ _; omega, by show 2 * (n + n / 2) ≤ _; omega⟩
    ⟨by show 1 * n ≤ _; omega, by show 1 * (n + n / 2) ≤ _; omega⟩
  rw [hsize] at h
  exact h

theorem mmx_pack (h0 : 0 < n) (h32 : n % 32 = 0) (hn : n < 2 ^ 32)
    (hsrc : src.length = 2 * (n + n / 2)) (hdst : dst.length = n + n / 2) :
    Mmx.llconvYvuPlanarS16u8 n src dst = some (packedImage n src dst) := by
  have hluma := @pixelPackS16u8Y_eq src dst 0 0 (n / 2 ^ 3) (by omega) (by omega) (by omega)
    (by omega)
  rw [Nat.mul_zero, show 8 * (n / 2 ^ 3) = n by omega] at hluma
  have hmapped := @length_mapped s16 u8 n 0 (fun v => clamp8 (v / 2 ^ 7)) src
  rw [show u8.size * n = n from Nat.one_mul n] at hmapped
  have hlen := @length_blit _ dst (mapped s16 u8 n 0 (fun v => clamp8 (v / 2 ^ 7)) src) 0
    (by omega)
  have hchroma := @pixelPackS16u8Uv_eq src
    (blit dst 0 (mapped s16 u8 n 0 (fun v => clamp8 (v / 2 ^ 7)) src)) n n (n / 2 ^ 4) (by omega)
    (by omega) (by omega) (by omega)
  rw [show 8 * (n / 2 ^ 4) = n / 2 by omega] at hchroma
  unfold Mmx.llconvYvuPlanarS16u8
  rw [hluma, Option.bind_eq_bind, Option.bind_some, hchroma, packedImage]

/-- What unpacking makes of the luma plane. -/
def unpackedLuma (n : Nat) (src dst : List UInt8) : List UInt8 :=
  blit dst 0 (mapped u8 s16 n 0 (fun v => v * 2 ^ 7) src)

/-- What it makes of `m` chroma samples at `x`, for the target's samples at `y`. -/
def unpackedChroma (m x y : Nat) (src dst : List UInt8) : List UInt8 :=
  blit dst (2 * y) (mapped u8 s16 m x (fun v => (v * 2 ^ 8 + 2 ^ 15) % 2 ^ 16) src)

theorem length_unpackedLuma (hdst : 2 * n ≤ dst.length) :
    (unpackedLuma n src dst).length = dst.length := by
  refine length_blit ?_
  rw [length_mapped]
  show 0 + 2 * n ≤ _
  omega

theorem length_unpackedChroma (hdst : 2 * (y + m) ≤ dst.length) :
    (unpackedChroma m x y src dst).length = dst.length := by
  refine length_blit ?_
  rw [length_mapped]
  show 2 * y + 2 * m ≤ _
  omega

theorem runSteps_unpackY (hsrc : n ≤ src.length) (hdst : 2 * n ≤ dst.length) :
    runSteps src (pixelUnpackU8s16Y n) dst = some (unpackedLuma n src dst) := by
  have h := @runSteps_mapSteps u8 s16 n 0 0 (fun v => v * 2 ^ 7) src dst
    (by show 1 * (0 + n) ≤ _; omega) (by show 2 * (0 + n) ≤ _; omega)
  rw [Nat.cast_zero, map_shift_zero, Nat.mul_zero] at h
  exact h

theorem runSteps_unpackUv (hsrc : x + m ≤ src.length) (hdst : 2 * (y + m) ≤ dst.length) :
    runSteps src ((pixelUnpackU8s16Uv m).map (.shift x y)) dst =
      some (unpackedChroma m x y src dst) :=
  @runSteps_mapSteps u8 s16 m x y _ src dst (by show 1 * (x + m) ≤ _; omega) hdst

theorem mmx_unpackY (h0 : 0 < n) (h8 : n % 8 = 0) (hn : n < 2 ^ 32) (hsrc : n ≤ src.length)
    (hdst : 2 * n ≤ dst.length) :
    Mmx.pixelUnpackU8s16Y src 0 0 (n / 2 ^ 3) dst = some (unpackedLuma n src dst) := by
  have h := @pixelUnpackU8s16Y_eq src dst 0 0 (n / 2 ^ 3) (by omega) (by omega) (by omega)
    (by omega)
  rw [Nat.mul_zero, show 8 * (n / 2 ^ 3) = n by omega] at h
  rw [h, unpackedLuma]

theorem mmx_unpackUv {count : Nat} (h0 : 0 < count) (hm : m = 8 * count) (hn : m < 2 ^ 32)
    (hsrc : x + m ≤ src.length) (hdst : 2 * (y + m) ≤ dst.length) :
    Mmx.pixelUnpackU8s16Uv src x (2 * y) count dst = some (unpackedChroma m x y src dst) := by
  rw [pixelUnpackU8s16Uv_eq h0 (by omega) (by omega) (by omega), ← hm, unpackedChroma]

theorem unpack_agree (h0 : 0 < n) (h32 : n % 32 = 0) (hn : n < 2 ^ 31)
    (hsrc : src.length = n + n / 2) (hdst : dst.length = 2 * (n + n / 2)) :
    ∃ out, runSteps src (llconvYvuPlanarU8s16 n) dst = some out ∧
      Mmx.llconvYvuPlanarU8s16 n src dst = some out := by
  have hlen := @length_unpackedLuma src dst n (by omega)
  have hsize : ofInt32 (n : Int) = n := ofInt32_of_nat_lt (by omega)
  have hhalf : ofInt32 ((n : Int) / 2) = n / 2 := by
    exact_mod_cast ofInt32_of_nat_lt (n := n / 2) (by omega)
  refine ⟨unpackedChroma (n / 2) n n src (unpackedLuma n src dst), ?_, ?_⟩
  · unfold llconvYvuPlanarU8s16
    rw [hsize, hhalf, runSteps_append, runSteps_unpackY (by omega) (by omega), Option.bind_some,
      runSteps_unpackUv (by omega) (by omega)]
  · unfold Mmx.llconvYvuPlanarU8s16
    rw [mmx_unpackY h0 (by omega) (by omega) (by omega) (by omega), Option.bind_eq_bind,
      Option.bind_some, mmx_unpackUv (m := n / 2) (by omega) (by omega) (by omega) (by omega)
        (by omega)]

theorem unpackYuv_agree (h0 : 0 < n) (h32 : n % 32 = 0) (hn : n < 2 ^ 31)
    (hsrc : src.length = n + n / 2) (hdst : dst.length = 2 * (n + n / 2)) :
    ∃ out, runSteps src (llconvYuvPlanarU8s16 n) dst = some out ∧
      Mmx.llconvYuvPlanarU8s16 n src dst = some out := by
  have hlen := @length_unpackedLuma src dst n (by omega)
  have hlen' := @length_unpackedChroma src (unpackedLuma n src dst) (n / 2 ^ 2) n
    (n + n / 2 ^ 2) (by omega)
  have hsize : ofInt32 (n : Int) = n := ofInt32_of_nat_lt (by omega)
  have hquarter : (n : Int) / 2 ^ 2 = (n / 2 ^ 2 : Nat) := by omega
  have hcount : ofInt32 ((n / 2 ^ 2 : Nat) : Int) = n / 2 ^ 2 := ofInt32_of_nat_lt (by omega)
  have hadd : (n : Int) + (n / 2 ^ 2 : Nat) = (n + n / 2 ^ 2 : Nat) := by omega
  refine ⟨unpackedChroma (n / 2 ^ 2) (n + n / 2 ^ 2) n src (unpackedChroma (n / 2 ^ 2) n
    (n + n / 2 ^ 2) src (unpackedLuma n src dst)), ?_, ?_⟩
  · unfold llconvYuvPlanarU8s16
    rw [hsize, hquarter, hcount, hadd, runSteps_append, runSteps_append,
      runSteps_unpackY (by omega) (by omega), Option.bind_some,
      runSteps_unpackUv (by omega) (by omega), Option.bind_some,
      runSteps_unpackUv (by omega) (by omega)]
  · unfold Mmx.llconvYuvPlanarU8s16
    rw [mmx_unpackY h0 (by omega) (by omega) (by omega) (by omega), Option.bind_eq_bind,
      Option.bind_some, mmx_unpackUv (m := n / 2 ^ 2) (by omega) (by omega) (by omega) (by omega)
        (by omega), Option.bind_some,
      mmx_unpackUv (m := n / 2 ^ 2) (by omega) (by omega) (by omega) (by omega) (by omega)]

/-- A byte that is unpacked and packed again, as luma. -/
theorem unpacked_luma {b : Int} (h0 : 0 ≤ b) (h1 : b ≤ 255) :
    u8.wrap (clamp8 (s16.wrap (b * 2 ^ 7) / 2 ^ 7)) = b := by
  have hclamp : clamp8 b = b := by
    unfold clamp8
    rw [if_neg (by omega), if_neg (by omega)]
  rw [Format.wrap_s16_of_bounds (by omega) (by omega), Int.mul_ediv_cancel _ (by decide), hclamp]
  exact Format.wrap_u8_of_bounds h0 (by omega)

theorem unpacked_chroma {b : Int} (h0 : 0 ≤ b) (h1 : b ≤ 255) :
    u8.wrap ((s16.wrap ((b * 2 ^ 8 + 2 ^ 15) % 2 ^ 16) + 2 ^ 15) % 2 ^ 16 / 2 ^ 8) = b := by
  have hmod : (b * 2 ^ 8 + 2 ^ 15) % 2 ^ 16 = (b * 2 ^ 8 - 2 ^ 15) % 2 ^ 16 := by omega
  have hload : s16.wrap ((b * 2 ^ 8 + 2 ^ 15) % 2 ^ 16) = b * 2 ^ 8 - 2 ^ 15 := by
    rw [Format.wrap_s16, hmod]
    exact (Int.emod_bmod _ (2 ^ 16)).trans (Int.bmod_eq_of_le (by omega) (by omega))
  rw [hload, show (b * 2 ^ 8 - 2 ^ 15 + 2 ^ 15) % 2 ^ 16 / 2 ^ 8 = b by omega]
  exact Format.wrap_u8_of_bounds h0 (by omega)

theorem pack_unpack {out dst' : List UInt8} (hn : n < 2 ^ 31) (hsrc : src.length = n + n / 2)
    (hdst : dst.length = 2 * (n + n / 2)) (hdst' : dst'.length = n + n / 2)
    (hrun : runSteps src (llconvYvuPlanarU8s16 n) dst = some out) :
    runSteps out (llconvYvuPlanarS16u8 n) dst' = some src := by
  have hlen := length_runSteps hrun
  obtain ⟨packed, hpacked⟩ := runSteps_isSome_iff.mpr
    (@fits_llconvYvuPlanarS16u8 n out.length dst'.length |>.mpr (by omega))
  have hlenp := length_runSteps hpacked
  have hsize : ofInt32 (n : Int) = n := ofInt32_of_nat_lt (by omega)
  have hhalf : ofInt32 ((n : Int) / 2) = n / 2 := by
    exact_mod_cast ofInt32_of_nat_lt (n := n / 2) (by omega)
  unfold llconvYvuPlanarU8s16 at hrun
  rw [hsize, hhalf] at hrun
  have honce : Once s16 (n + n / 2) _ := @once_planar u8 s16 n (fun v => v * 2 ^ 7) (n / 2)
    fun v => (v * 2 ^ 8 + 2 ^ 15) % 2 ^ 16
  rw [hpacked]
  refine congrArg some (eq_of_load_u8 (by omega) fun i hi => ?_)
  obtain ⟨hb0, hb1⟩ := u8_load_bounds src i
  rcases Nat.lt_or_ge i n with h | h
  · have hload := honce.load_map hrun (fun _ hst => List.mem_append_left _ hst) h
    rw [packed_luma hpacked h, hload, unpacked_luma hb0 hb1]
  · have hload := honce.load_shift hrun (fun _ hst => List.mem_append_right _ hst)
      (show i - n < n / 2 by omega)
    rw [show (n : Int) + (i - n : Nat) = i by omega] at hload
    rw [packed_chroma hpacked h (by omega), hload, unpacked_chroma hb0 hb1]

/-- The two versions make the same of a pixel count that is a positive multiple of 32, inside
buffers of 3/2 as many samples, and packing undoes unpacking. -/
theorem versions_agree (h0 : 0 < n) (h32 : n % 32 = 0) :
    (n < 2 ^ 32 → ∀ src dst : List UInt8, src.length = 2 * (n + n / 2) → dst.length = n + n / 2 →
      ∃ out, runSteps src (llconvYvuPlanarS16u8 n) dst = some out ∧
        Mmx.llconvYvuPlanarS16u8 n src dst = some out) ∧
    (n < 2 ^ 31 → ∀ src dst : List UInt8, src.length = n + n / 2 → dst.length = 2 * (n + n / 2) →
      (∃ out, runSteps src (llconvYvuPlanarU8s16 n) dst = some out ∧
        Mmx.llconvYvuPlanarU8s16 n src dst = some out ∧
        ∀ dst' : List UInt8, dst'.length = n + n / 2 →
          runSteps out (llconvYvuPlanarS16u8 n) dst' = some src) ∧
      ∃ out, runSteps src (llconvYuvPlanarU8s16 n) dst = some out ∧
        Mmx.llconvYuvPlanarU8s16 n src dst = some out) := by
  constructor
  · intro hn src dst hsrc hdst
    exact ⟨packedImage n src dst, runSteps_pack hsrc hdst, mmx_pack h0 h32 hn hsrc hdst⟩
  · intro hn src dst hsrc hdst
    obtain ⟨out, hrun, hmmx⟩ := unpack_agree h0 h32 hn hsrc hdst
    exact ⟨⟨out, hrun, hmmx, fun dst' hdst' => pack_unpack hn hsrc hdst hdst' hrun⟩,
      unpackYuv_agree h0 h32 hn hsrc hdst⟩

/-- A picture of 32 pixels. -/
theorem versions_agree_smallest :
    (32 < 2 ^ 32 → ∀ src dst : List UInt8, src.length = 2 * (32 + 32 / 2) →
      dst.length = 32 + 32 / 2 → ∃ out, runSteps src (llconvYvuPlanarS16u8 32) dst = some out ∧
        Mmx.llconvYvuPlanarS16u8 32 src dst = some out) ∧
    (32 < 2 ^ 31 → ∀ src dst : List UInt8, src.length = 32 + 32 / 2 →
      dst.length = 2 * (32 + 32 / 2) →
      (∃ out, runSteps src (llconvYvuPlanarU8s16 (32 : Nat)) dst = some out ∧
        Mmx.llconvYvuPlanarU8s16 32 src dst = some out ∧
        ∀ dst' : List UInt8, dst'.length = 32 + 32 / 2 →
          runSteps out (llconvYvuPlanarS16u8 32) dst' = some src) ∧
      ∃ out, runSteps src (llconvYuvPlanarU8s16 (32 : Nat)) dst = some out ∧
        Mmx.llconvYuvPlanarU8s16 32 src dst = some out) :=
  versions_agree (n := 32) (by decide) rfl

end Versions

end PureDataPacket
