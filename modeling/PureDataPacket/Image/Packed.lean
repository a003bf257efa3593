/-
# `PureDataPacket.Image.Packed` — the camera formats

`llconv_yuyv_packed_u8s16` and `llconv_uyvy_packed_u8s16` read and write words of 32 bits: two
pixels that share their chroma, and two samples of a plane.  The words are those of a
little-endian machine.

A block is two by two words, and every word of the target is stored once.  The second routine
stores one of them twice, with the same value.

An `unsigned int` that comes from the dimensions is cut to 32 bits where it is computed.
Indices are exact.

| | |
| :-- | :-- |
| `flip_eq` | a word of two samples whose top bits are flipped |
| `sum_eq` | the sums of two words of samples, which do not leave their lanes |
| `WordsOf` | what is in the words of a block |
| `fits_packed` | the loops stay inside an image and a target of its dimensions |
| `luma_of_words` | the luma samples of a target whose words are known |
| `chroma_of_words` | the chroma samples of a target whose words are known |
-/
import PureDataPacket.Lib.Elements
import PureDataPacket.Lib.Lanes

namespace PureDataPacket

/-! ## Words of 32 bits -/

/-- `unsigned int`. -/
def uint32 : Format where
  size := 4
  decode
    | [a, b, c, d] => ofBytes a b c d
    | _ => 0
  encode v := le32 (v % 2 ^ 32).toNat
  length_encode _ := rfl

/-- `(w & 0x00ff00ff) << 7`: the even bytes, as samples. -/
def evenBytes (w : Nat) : Nat := u32 ((w &&& 0x00ff00ff) <<< 7)

/-- `(w & 0xff00ff00) >> 1`: the odd bytes. -/
def oddBytes (w : Nat) : Nat := (w &&& 0xff00ff00) >>> 1

/-- The low samples of two words. -/
def combineLow (v00 v01 : Nat) : Nat := (u32 (v01 <<< 16) ||| (v00 &&& 0x0000ffff)) ^^^ 0x80008000

def combineHigh (v00 v01 : Nat) : Nat := ((v01 &&& 0xffff0000) ||| (v00 >>> 16)) ^^^ 0x80008000

/-- A store of the luma of a word. -/
def packedLuma (luma : Nat → Nat) (k : Int) : Step :=
  .map uint32 uint32 k k fun v => luma v.toNat

/-- A store of chroma: the sums of two words and of those below them, combined. -/
def packedChroma (chroma : Nat → Nat) (combine : Nat → Nat → Nat) (k half i : Int) : Step :=
  ⟨uint32, uint32, [k, k + 1, k + half, k + half + 1], i, fun
    | [v00, v01, v10, v11] =>
        combine (u32 (chroma v00.toNat + chroma v10.toNat))
          (u32 (chroma v01.toNat + chroma v11.toNat))
    | _ => 0⟩

/-- The body of the loops.  What they call `u` goes to the first of the chroma planes. -/
def packedBlock (luma chroma : Nat → Nat) (w h : Nat) (j i : Int) : List Step :=
  let uoffset := u32 (w * h) / 2
  let voffset := u32 (u32 (w * h) + u32 (w * h) / 4) / 2
  let half : Int := (w / 2 : Nat)
  [packedLuma luma (i + j), packedLuma luma (i + j + 1), packedLuma luma (i + j + half),
    packedLuma luma (i + j + half + 1),
    packedChroma chroma combineHigh (i + j) half (uoffset + i / 2 + j / 4),
    packedChroma chroma combineLow (i + j) half (voffset + i / 2 + j / 4)]

def packedLoops (w h : Nat) (body : Int → Int → List Step) : List Step :=
  stepsUpTo (u32 (h * w) / 2 : Nat) w fun j => stepsUpTo (w / 2 : Nat) 2 fun i => body j i

/-- `llconv_yuyv_packed_u8s16`. -/
def llconvYuyvPackedU8s16 (w h : Nat) : List Step :=
  packedLoops w h (packedBlock evenBytes oddBytes w h)

/-- `llconv_uyvy_packed_u8s16`.  Its body starts with its first store twice. -/
def llconvUyvyPackedU8s16 (w h : Nat) : List Step :=
  packedLoops w h fun j i =>
    packedLuma oddBytes (i + j) :: packedBlock oddBytes evenBytes w h j i

/-! ## Two samples in a word -/

section Words

variable {x y x' y' a b c d : Nat}

theorem evenBytes_eq (ha : a < 2 ^ 8) (hb : b < 2 ^ 8) (hc : c < 2 ^ 8) :
    evenBytes (a + 2 ^ 8 * b + 2 ^ 16 * c + 2 ^ 24 * d) = 2 ^ 16 * (128 * c) + 128 * a := by
  have hmask : ∀ x y : Nat, x < 2 ^ 8 → (2 ^ 8 * y + x) &&& 0x00ff = x := by
    intro x y hx
    have h := land_lanes (y := y) (n := 0) hx (show 2 ^ 8 - 1 < 2 ^ 8 by decide)
    rw [Nat.and_zero, Nat.and_two_pow_sub_one_of_lt_two_pow hx] at h
    exact h.trans (Nat.zero_add x)
  have h := land_lanes (i := 16) (x := 2 ^ 8 * b + a) (m := 0x00ff) (y := 2 ^ 8 * d + c)
    (n := 0x00ff) (by omega) (by decide)
  rw [hmask a b ha, hmask c d hc] at h
  unfold evenBytes u32
  rw [show a + 2 ^ 8 * b + 2 ^ 16 * c + 2 ^ 24 * d = 2 ^ 16 * (2 ^ 8 * d + c) + (2 ^ 8 * b + a) by
    ring, show 0x00ff00ff = 2 ^ 16 * 0x00ff + 0x00ff by rfl, h, Nat.shiftLeft_eq]
  omega

theorem oddBytes_eq (ha : a < 2 ^ 8) (hb : b < 2 ^ 8) (hc : c < 2 ^ 8) (hd : d < 2 ^ 8) :
    oddBytes (a + 2 ^ 8 * b + 2 ^ 16 * c + 2 ^ 24 * d) = 2 ^ 16 * (128 * d) + 128 * b := by
  have hmask : ∀ x y : Nat, x < 2 ^ 8 → y < 2 ^ 8 → (2 ^ 8 * y + x) &&& 0xff00 = 2 ^ 8 * y := by
    intro x y hx hy
    have h := land_lanes (y := y) (n := 2 ^ 8 - 1) hx (Nat.two_pow_pos 8)
    rw [Nat.and_zero, Nat.and_two_pow_sub_one_of_lt_two_pow hy] at h
    exact h
  have h := land_lanes (i := 16) (x := 2 ^ 8 * b + a) (m := 0xff00) (y := 2 ^ 8 * d + c)
    (n := 0xff00) (by omega) (by decide)
  rw [hmask a b ha hb, hmask c d hc hd] at h
  unfold oddBytes
  rw [show a + 2 ^ 8 * b + 2 ^ 16 * c + 2 ^ 24 * d = 2 ^ 16 * (2 ^ 8 * d + c) + (2 ^ 8 * b + a) by
    ring, show 0xff00ff00 = 2 ^ 16 * 0xff00 + 0xff00 by rfl, h, Nat.shiftRight_eq_div_pow]
  omega

theorem flip_eq (hx : x < 2 ^ 16) (hy : y < 2 ^ 16) : (2 ^ 16 * y + x) ^^^ 0x80008000 =
    2 ^ 16 * ((y + 2 ^ 15) % 2 ^ 16) + (x + 2 ^ 15) % 2 ^ 16 := by
  have h := xor_lanes (i := 16) (y := y) (n := 2 ^ 15) hx (show 2 ^ 15 < 2 ^ 16 by decide)
  rwa [xor_top hx, xor_top hy] at h

theorem combineLow_eq (hx : x < 2 ^ 16) (hx' : x' < 2 ^ 16) :
    combineLow (2 ^ 16 * y + x) (2 ^ 16 * y' + x') =
      2 ^ 16 * ((x' + 2 ^ 15) % 2 ^ 16) + (x + 2 ^ 15) % 2 ^ 16 := by
  have hshift : u32 ((2 ^ 16 * y' + x') <<< 16) = 2 ^ 16 * x' + 0 := by
    unfold u32
    rw [Nat.shiftLeft_eq]
    omega
  have hmask : (2 ^ 16 * y + x) &&& 0x0000ffff = 2 ^ 16 * 0 + x := by
    have h := land_lanes (y := y) (n := 0) hx (show 2 ^ 16 - 1 < 2 ^ 16 by decide)
    rw [Nat.and_zero, Nat.and_two_pow_sub_one_of_lt_two_pow hx] at h
    exact h
  unfold combineLow
  rw [hshift, hmask, lor_lanes (by decide) hx, Nat.or_zero, Nat.zero_or, flip_eq hx hx']

theorem combineHigh_eq (hx : x < 2 ^ 16) (hy : y < 2 ^ 16) (hx' : x' < 2 ^ 16)
    (hy' : y' < 2 ^ 16) : combineHigh (2 ^ 16 * y + x) (2 ^ 16 * y' + x') =
      2 ^ 16 * ((y' + 2 ^ 15) % 2 ^ 16) + (y + 2 ^ 15) % 2 ^ 16 := by
  have hmask : (2 ^ 16 * y' + x') &&& 0xffff0000 = 2 ^ 16 * y' + 0 := by
    have h := land_lanes (y := y') (n := 2 ^ 16 - 1) hx' (Nat.two_pow_pos 16)
    rw [Nat.and_zero, Nat.and_two_pow_sub_one_of_lt_two_pow hy'] at h
    exact h
  have hshift : (2 ^ 16 * y + x) >>> 16 = 2 ^ 16 * 0 + y := by
    rw [Nat.shiftRight_eq_div_pow]
    omega
  unfold combineHigh
  rw [hmask, hshift, lor_lanes (by decide) hy, Nat.or_zero, Nat.zero_or, flip_eq hy hy']

theorem sum_eq (hx : x + x' < 2 ^ 16) (hy : y + y' < 2 ^ 16) :
    u32 (2 ^ 16 * y + x + (2 ^ 16 * y' + x')) = 2 ^ 16 * (y + y') + (x + x') := by
  unfold u32
  omega

end Words

/-! ## The steps -/

section Steps

variable {luma chroma : Nat → Nat} {a b row k : Nat}

theorem packed_sizes (hsize : 10 * (a * b) < 2 ^ 32) :
    u32 (4 * a * (2 * b)) / 2 = 4 * (a * b) ∧
      u32 (u32 (4 * a * (2 * b)) + u32 (4 * a * (2 * b)) / 4) / 2 = 5 * (a * b) := by
  have harea : 4 * a * (2 * b) = 8 * (a * b) := by ring
  rw [harea, u32_eq_self (n := 8 * (a * b)) (by omega), u32_eq_self (by omega)]
  omega

theorem packedLoops_eq {body : Int → Int → List Step} (ha : 0 < a)
    (hsize : 10 * (a * b) < 2 ^ 32) : packedLoops (4 * a) (2 * b) body =
      stepsFor b fun row => stepsFor a fun k => body (4 * a * row) (2 * k) := by
  have hrows : iterations (4 * (a * b) : Nat) (4 * a : Nat) = b := by
    have h := @iterations_of_mul 0 (4 * a : Nat) (by omega) b
    rwa [show (0 + (4 * a : Nat) * (b : Int) - 0) = (4 * (a * b) : Nat) by push_cast; ring] at h
  have hcols : iterations (4 * a / 2 : Nat) 2 = a := by
    have h := @iterations_of_mul 0 2 (by decide) a
    rwa [show (0 + 2 * (a : Int) - 0) = (4 * a / 2 : Nat) by omega] at h
  unfold packedLoops stepsUpTo
  rw [Nat.mul_comm (2 * b), (packed_sizes hsize).1, hrows, hcols]
  push_cast
  rfl

theorem packedBlock_eq (hsize : 10 * (a * b) < 2 ^ 32) :
    packedBlock luma chroma (4 * a) (2 * b) (4 * a * row) (2 * k) =
      let first := 4 * (a * row) + 2 * k
      [packedLuma luma first, packedLuma luma (first + 1 : Nat),
        packedLuma luma (first + 2 * a : Nat), packedLuma luma (first + 2 * a + 1 : Nat),
        packedChroma chroma combineHigh first (2 * a : Nat) (4 * (a * b) + (a * row + k) : Nat),
        packedChroma chroma combineLow first (2 * a : Nat) (5 * (a * b) + (a * row + k) : Nat)] := by
  have hrow : (4 * a * row : Int) = 4 * (a * row : Nat) := by
    push_cast
    ring
  have hhalf : 4 * a / 2 = 2 * a := by omega
  unfold packedBlock
  rw [(packed_sizes hsize).1, (packed_sizes hsize).2, hrow, hhalf]
  dsimp only
  refine List.cons_eq_cons.mpr ⟨congrArg _ (by omega), ?_⟩
  refine List.cons_eq_cons.mpr ⟨congrArg _ (by omega), ?_⟩
  refine List.cons_eq_cons.mpr ⟨congrArg _ (by omega), ?_⟩
  refine List.cons_eq_cons.mpr ⟨congrArg _ (by omega), ?_⟩
  have hfirst : (2 * k + 4 * (a * row : Nat) : Int) = (4 * (a * row) + 2 * k : Nat) := by omega
  rw [hfirst]
  refine List.cons_eq_cons.mpr ⟨congrArg _ (by omega), ?_⟩
  exact List.cons_eq_cons.mpr ⟨congrArg _ (by omega), rfl⟩

theorem once_packed (hsize : 10 * (a * b) < 2 ^ 32) : Once uint32 (6 * (a * b))
    (stepsFor b fun row => stepsFor a fun k =>
      packedBlock luma chroma (4 * a) (2 * b) (4 * a * row) (2 * k)) := by
  refine once_blocks (fun row k st hst => ?_) fun row k => ?_
  · rw [packedBlock_eq hsize] at hst
    simp only [List.mem_cons, List.not_mem_nil, or_false] at hst
    rcases hst with rfl | rfl | rfl | rfl | rfl | rfl <;> rfl
  · rw [packedBlock_eq hsize]
    exact (((((List.Perm.swap _ _ _).cons _).cons _).cons _).cons _)

/-- The steps of the second routine are those of a loop without the step that is there
twice. -/
theorem mem_uyvy {st : Step} (ha : 0 < a) (hsize : 10 * (a * b) < 2 ^ 32) :
    st ∈ llconvUyvyPackedU8s16 (4 * a) (2 * b) ↔ st ∈ stepsFor b fun row => stepsFor a fun k =>
      packedBlock oddBytes evenBytes (4 * a) (2 * b) (4 * a * row) (2 * k) := by
  have hbody : ∀ j i : Int, st ∈ packedLuma oddBytes (i + j) ::
      packedBlock oddBytes evenBytes (4 * a) (2 * b) j i ↔
        st ∈ packedBlock oddBytes evenBytes (4 * a) (2 * b) j i := by
    intro j i
    rw [List.mem_cons, or_iff_right_of_imp]
    rintro rfl
    exact List.mem_cons_self
  unfold llconvUyvyPackedU8s16
  rw [packedLoops_eq ha hsize]
  simp only [mem_stepsFor, hbody]

end Steps

/-! ## What they store -/

def byteAt (m : List UInt8) (k : Nat) : Nat := (m.getD k 0).toNat

/-- The chroma sample of two words above each other: byte `o` of word `k` and of the word half
a row further, without the top bit's flip. -/
def chromaSum (bytes : List UInt8) (a k o : Nat) : Nat :=
  128 * (byteAt bytes (4 * k + o) + byteAt bytes (4 * (k + 2 * a) + o))

/-- The words of `src` are read as those of a YUYV image are that has the bytes `bytes`. -/
def ReadsAs (luma chroma : Nat → Nat) (src bytes : List UInt8) : Prop :=
  ∀ k : Nat, 4 * k + 4 ≤ src.length →
    luma (uint32.load src k).toNat =
        2 ^ 16 * (128 * byteAt bytes (4 * k + 2)) + 128 * byteAt bytes (4 * k) ∧
      chroma (uint32.load src k).toNat =
        2 ^ 16 * (128 * byteAt bytes (4 * k + 3)) + 128 * byteAt bytes (4 * k + 1)

/-- What is in the words of a block. -/
structure WordsOf (bytes out : List UInt8) (a b row k : Nat) : Prop where
  luma : ∀ i ∈ (blockIndices a b row k).take 4, uint32.load out i =
    (2 ^ 16 * (128 * byteAt bytes (4 * i + 2)) + 128 * byteAt bytes (4 * i) : Nat)
  v : uint32.load out (4 * (a * b) + (a * row + k) : Nat) =
    (2 ^ 16 * ((chromaSum bytes a (4 * (a * row) + 2 * k + 1) 3 + 2 ^ 15) % 2 ^ 16) +
      (chromaSum bytes a (4 * (a * row) + 2 * k) 3 + 2 ^ 15) % 2 ^ 16 : Nat)
  u : uint32.load out (5 * (a * b) + (a * row + k) : Nat) =
    (2 ^ 16 * ((chromaSum bytes a (4 * (a * row) + 2 * k + 1) 1 + 2 ^ 15) % 2 ^ 16) +
      (chromaSum bytes a (4 * (a * row) + 2 * k) 1 + 2 ^ 15) % 2 ^ 16 : Nat)

section Loads

variable {luma chroma : Nat → Nat} {a b row k : Nat} {m src dst out bytes : List UInt8}
  {l : List Step}

theorem byteAt_lt (m : List UInt8) (k : Nat) : byteAt m k < 2 ^ 8 := (m.getD k 0).toNat_lt

theorem uint32_load (h : 4 * k + 4 ≤ m.length) : uint32.load m k =
    (byteAt m (4 * k) + 2 ^ 8 * byteAt m (4 * k + 1) + 2 ^ 16 * byteAt m (4 * k + 2) +
      2 ^ 24 * byteAt m (4 * k + 3) : Nat) := by
  unfold Format.load
  rw [Int.toNat_natCast, show uint32.size = 4 from rfl, chunk_eq h]
  rfl

theorem wrap_uint32 {n : Nat} (hn : n < 2 ^ 32) : uint32.wrap n = n := by
  have hword : ((n : Int) % 2 ^ 32).toNat = n := by omega
  show ((ofBytes _ _ _ _ : Nat) : Int) = n
  rw [hword, ofBytes_le32 hn]

theorem samples_of_word {x y : Nat} (hlen : 4 * k + 4 ≤ m.length) (hx : x < 2 ^ 16)
    (h : uint32.load m k = (2 ^ 16 * y + x : Nat)) :
    s16.load m (2 * k : Nat) = Int.bmod x (2 ^ 16) ∧
      s16.load m (2 * k + 1 : Nat) = Int.bmod y (2 ^ 16) := by
  rw [uint32_load hlen] at h
  have h0 := byteAt_lt m (4 * k)
  have h1 := byteAt_lt m (4 * k + 1)
  have h2 := byteAt_lt m (4 * k + 2)
  have h3 := byteAt_lt m (4 * k + 3)
  have hlow : byteAt m (4 * k) + 2 ^ 8 * byteAt m (4 * k + 1) = x := by omega
  have hhigh : byteAt m (4 * k + 2) + 2 ^ 8 * byteAt m (4 * k + 3) = y := by omega
  unfold byteAt at hlow hhigh
  constructor
  · rw [s16_load (by omega), show 2 * (2 * k) = 4 * k by omega, hlow]
  · rw [s16_load (by omega), show 2 * (2 * k + 1) = 4 * k + 2 by omega, hhigh]

theorem chromaSum_lt {o : Nat} : chromaSum bytes a k o < 2 ^ 16 := by
  have h := byteAt_lt bytes (4 * k + o)
  have h' := byteAt_lt bytes (4 * (k + 2 * a) + o)
  unfold chromaSum
  omega

/-- The chroma of a word and of the one below it. -/
theorem chroma_eq (hreads : ReadsAs luma chroma src bytes)
    (hlen : 4 * (k + 2 * a) + 4 ≤ src.length) :
    u32 (chroma (uint32.load src k).toNat + chroma (uint32.load src (k + 2 * a : Nat)).toNat) =
      2 ^ 16 * chromaSum bytes a k 3 + chromaSum bytes a k 1 := by
  have h1 := byteAt_lt bytes (4 * k + 1)
  have h3 := byteAt_lt bytes (4 * k + 3)
  have h1' := byteAt_lt bytes (4 * (k + 2 * a) + 1)
  have h3' := byteAt_lt bytes (4 * (k + 2 * a) + 3)
  rw [(hreads k (by omega)).2, (hreads (k + 2 * a) hlen).2, sum_eq (by omega) (by omega),
    ← Nat.mul_add, ← Nat.mul_add]
  rfl

theorem wordsOf_of_run (hreads : ReadsAs luma chroma src bytes) (hsize : 10 * (a * b) < 2 ^ 32)
    (hsrc : src.length = 16 * (a * b)) (hsub : ∀ st, st ∈ l ↔ st ∈ stepsFor b fun row =>
      stepsFor a fun k => packedBlock luma chroma (4 * a) (2 * b) (4 * a * row) (2 * k))
    (hrow : row < b) (hk : k < a) (hrun : runSteps src l dst = some out) :
    WordsOf bytes out a b row k := by
  have hlt := add_mul_lt hrow hk
  have hrowlt := Nat.mul_le_mul_left a (Nat.succ_le_of_lt hrow)
  rw [Nat.mul_succ] at hrowlt
  have hload : ∀ st ∈ packedBlock luma chroma (4 * a) (2 * b) (4 * a * row) (2 * k),
      uint32.load out st.index =
        uint32.wrap (st.value (st.loads.map (st.source.load src))) := fun st hst =>
    (once_packed hsize).load_of_subset (fun st hst => (hsub st).mp hst) hrun
      ((hsub st).mpr (mem_stepsFor.mpr ⟨row, hrow, mem_stepsFor.mpr ⟨k, hk, hst⟩⟩))
  rw [packedBlock_eq hsize] at hload
  simp only [List.forall_mem_cons, List.not_mem_nil, false_imp_iff, implies_true, and_true] at hload
  obtain ⟨hy0, hy1, hy2, hy3, hv, hu⟩ := hload
  have hluma : ∀ i : Nat, i < 4 * (a * b) →
      uint32.load out i = uint32.wrap (luma (uint32.load src i).toNat : Nat) → uint32.load out i =
        (2 ^ 16 * (128 * byteAt bytes (4 * i + 2)) + 128 * byteAt bytes (4 * i) : Nat) := by
    intro i hi h
    have h0 := byteAt_lt bytes (4 * i)
    have h2 := byteAt_lt bytes (4 * i + 2)
    rw [h, (hreads i (by omega)).1, wrap_uint32 (by omega)]
  have hindex : ∀ i : Nat, (i : Int) + (2 * a : Nat) = (i + 2 * a : Nat) := fun i =>
    (Nat.cast_add i (2 * a)).symm
  have hnext : ∀ i : Nat, (i : Int) + 1 = (i + 1 : Nat) := fun i => (Nat.cast_add i 1).symm
  have hchroma := chroma_eq (k := 4 * (a * row) + 2 * k) (a := a) hreads (by omega)
  have hchroma' := chroma_eq (k := 4 * (a * row) + 2 * k + 1) (a := a) hreads (by omega)
  rw [Nat.add_right_comm _ 1 (2 * a)] at hchroma'
  refine ⟨?_, ?_, ?_⟩
  · simp only [blockIndices, List.take_succ_cons, List.take_zero, List.forall_mem_cons,
      List.not_mem_nil, false_imp_iff, implies_true, and_true]
    exact ⟨hluma _ (by omega) hy0, hluma _ (by omega) hy1, hluma _ (by omega) hy2,
      hluma _ (by omega) hy3⟩
  · simp only [packedChroma, List.map_cons, List.map_nil, hindex, hnext] at hv
    rw [hchroma, hchroma', combineHigh_eq chromaSum_lt chromaSum_lt chromaSum_lt chromaSum_lt,
      wrap_uint32 (by omega)] at hv
    exact hv
  · simp only [packedChroma, List.map_cons, List.map_nil, hindex, hnext] at hu
    rw [hchroma, hchroma', combineLow_eq chromaSum_lt chromaSum_lt, wrap_uint32 (by omega)] at hu
    exact hu

end Loads

/-! ## The two routines -/

/-- The image with the bytes of each pair exchanged. -/
def exchangeBytes : List UInt8 → List UInt8
  | x :: y :: l => y :: x :: exchangeBytes l
  | l => l

section Routines

variable {a b : Nat} {src dst dst' out out' bytes : List UInt8}

theorem length_exchangeBytes (src : List UInt8) : (exchangeBytes src).length = src.length := by
  fun_induction exchangeBytes src with
  | case1 x y l ih =>
      rw [List.length_cons, List.length_cons, ih, List.length_cons, List.length_cons]
  | case2 l h => rfl

theorem byteAt_exchangeBytes (src : List UInt8) : ∀ k : Nat, 2 * k + 2 ≤ src.length →
    byteAt (exchangeBytes src) (2 * k) = byteAt src (2 * k + 1) ∧
      byteAt (exchangeBytes src) (2 * k + 1) = byteAt src (2 * k) := by
  fun_induction exchangeBytes src with
  | case1 x y l ih =>
      intro k hk
      cases k with
      | zero => exact ⟨rfl, rfl⟩
      | succ k =>
          rw [List.length_cons, List.length_cons] at hk
          exact ih k (by omega)
  | case2 l h =>
      intro k hk
      cases l with
      | nil => exact absurd hk (Nat.not_succ_le_zero _)
      | cons x l =>
          cases l with
          | nil =>
              rw [List.length_singleton] at hk
              omega
          | cons y l => exact absurd rfl (h x y l)

theorem readsAs_yuyv : ReadsAs evenBytes oddBytes src src := by
  intro k hk
  rw [uint32_load hk, Int.toNat_natCast]
  exact ⟨evenBytes_eq (byteAt_lt _ _) (byteAt_lt _ _) (byteAt_lt _ _),
    oddBytes_eq (byteAt_lt _ _) (byteAt_lt _ _) (byteAt_lt _ _) (byteAt_lt _ _)⟩

theorem readsAs_uyvy : ReadsAs oddBytes evenBytes (exchangeBytes src) src := by
  intro k hk
  rw [length_exchangeBytes] at hk
  obtain ⟨h0, h1⟩ := byteAt_exchangeBytes src (2 * k) (by omega)
  obtain ⟨h2, h3⟩ := byteAt_exchangeBytes src (2 * k + 1) (by omega)
  rw [show 2 * (2 * k) = 4 * k by omega] at h0 h1
  rw [show 2 * (2 * k + 1) = 4 * k + 2 by omega] at h2 h3
  rw [uint32_load (by rw [length_exchangeBytes]; exact hk), Int.toNat_natCast, h0, h1, h2, h3]
  exact ⟨oddBytes_eq (byteAt_lt _ _) (byteAt_lt _ _) (byteAt_lt _ _) (byteAt_lt _ _),
    evenBytes_eq (byteAt_lt _ _) (byteAt_lt _ _) (byteAt_lt _ _)⟩

theorem within_uint32 {n : Nat} {i : Int} : uint32.Within n i ↔ 0 ≤ i ∧ 4 * i + 4 ≤ n := by
  show 0 ≤ i ∧ ((4 : Nat) : Int) * (i + 1) ≤ n ↔ _
  omega

theorem fits_packed {luma chroma : Nat → Nat} {n m : Nat} (hsize : 10 * (a * b) < 2 ^ 32)
    (hn : n = 16 * (a * b)) (hm : m = 24 * (a * b)) :
    Fits (stepsFor b fun row => stepsFor a fun k =>
      packedBlock luma chroma (4 * a) (2 * b) (4 * a * row) (2 * k)) n m := by
  simp only [fits_stepsFor]
  intro row hrow k hk
  have hlt := add_mul_lt hrow hk
  have hrowlt := Nat.mul_le_mul_left a (Nat.succ_le_of_lt hrow)
  rw [Nat.mul_succ] at hrowlt
  have hluma : ∀ i : Nat, i < 4 * (a * b) → (packedLuma luma i).Fits n m := by
    intro i hi
    refine Step.fits_map.mpr ⟨within_uint32.mpr ?_, within_uint32.mpr ?_⟩ <;> omega
  have hchroma : ∀ combine, ∀ i : Nat, i < 6 * (a * b) →
      (packedChroma chroma combine (4 * (a * row) + 2 * k : Nat) (2 * a : Nat) i).Fits n m := by
    intro combine i hi
    simp only [Step.Fits, packedChroma, List.forall_mem_cons, List.not_mem_nil, false_imp_iff,
      implies_true, and_true, within_uint32]
    omega
  rw [packedBlock_eq hsize]
  simp only [fits_cons, fits_nil, and_true]
  exact ⟨hluma _ (by omega), hluma _ (by omega), hluma _ (by omega), hluma _ (by omega),
    hchroma _ _ (by omega), hchroma _ _ (by omega)⟩

theorem luma_of_words (hwords : ∀ row < b, ∀ k < a, WordsOf bytes out a b row k)
    (hout : out.length = 24 * (a * b)) {n : Nat} (hn : n < 8 * (a * b)) :
    s16.load out n = 128 * u8.load bytes (2 * n : Nat) := by
  have hplane : 2 * a * (2 * b) = 4 * (a * b) := by ring
  obtain ⟨y, hy, x, hx, hi⟩ := exists_mul_add (a := 2 * a) (b := 2 * b) (i := n / 2) (by omega)
  obtain ⟨row, hrow, k, hk, hmem⟩ := exists_block_first hx hy
  have hword := (hwords row hrow k hk).luma _ (hi ▸ hmem)
  have h0 := byteAt_lt bytes (4 * (n / 2))
  have h2 := byteAt_lt bytes (4 * (n / 2) + 2)
  have hbyte := byteAt_lt bytes (2 * n)
  obtain ⟨hlow, hhigh⟩ := samples_of_word (by omega) (by omega) hword
  rw [u8_load]
  rcases Nat.mod_two_eq_zero_or_one n with h | h
  · rw [show 2 * (n / 2) = n by omega, show 4 * (n / 2) = 2 * n by omega] at hlow
    rw [hlow, Int.bmod_eq_of_le (by omega) (by omega), Nat.cast_mul]
    rfl
  · rw [show 2 * (n / 2) + 1 = n by omega, show 4 * (n / 2) + 2 = 2 * n by omega] at hhigh
    rw [hhigh, Int.bmod_eq_of_le (by omega) (by omega), Nat.cast_mul]
    rfl

/-- A sample with the top bit flipped, read with a sign. -/
theorem bmod_flip {x : Nat} (hx : x < 2 ^ 16) :
    Int.bmod ((x + 2 ^ 15) % 2 ^ 16 : Nat) (2 ^ 16) = x - 2 ^ 15 := by
  have hmod : (((x + 2 ^ 15) % 2 ^ 16 : Nat) : Int) = (x - 2 ^ 15) % 2 ^ 16 := by omega
  rw [hmod]
  exact (Int.emod_bmod _ (2 ^ 16)).trans (Int.bmod_eq_of_le (by omega) (by omega))

theorem chroma_of_words (hwords : ∀ row < b, ∀ k < a, WordsOf bytes out a b row k)
    (hout : out.length = 24 * (a * b)) {x y : Nat} (hx : x < 2 * a) (hy : y < b) :
    s16.load out (8 * (a * b) + (2 * a * y + x) : Nat) =
        chromaSum bytes a (4 * (a * y) + x) 3 - 2 ^ 15 ∧
      s16.load out (10 * (a * b) + (2 * a * y + x) : Nat) =
        chromaSum bytes a (4 * (a * y) + x) 1 - 2 ^ 15 := by
  have hwords' := hwords y hy (x / 2) (by omega)
  have hlt := add_mul_lt hy (show x / 2 < a by omega)
  have hmul : 2 * a * y = 2 * (a * y) := Nat.mul_assoc 2 a y
  obtain ⟨hvlow, hvhigh⟩ := samples_of_word (by omega) (Nat.mod_lt _ (by decide)) hwords'.v
  obtain ⟨hulow, huhigh⟩ := samples_of_word (by omega) (Nat.mod_lt _ (by decide)) hwords'.u
  rw [bmod_flip chromaSum_lt] at hvlow hvhigh hulow huhigh
  rcases Nat.mod_two_eq_zero_or_one x with h | h
  · rw [show 2 * (4 * (a * b) + (a * y + x / 2)) = 8 * (a * b) + (2 * a * y + x) by omega,
      show 4 * (a * y) + 2 * (x / 2) = 4 * (a * y) + x by omega] at hvlow
    rw [show 2 * (5 * (a * b) + (a * y + x / 2)) = 10 * (a * b) + (2 * a * y + x) by omega,
      show 4 * (a * y) + 2 * (x / 2) = 4 * (a * y) + x by omega] at hulow
    exact ⟨hvlow, hulow⟩
  · rw [show 2 * (4 * (a * b) + (a * y + x / 2)) + 1 = 8 * (a * b) + (2 * a * y + x) by omega,
      show 4 * (a * y) + 2 * (x / 2) + 1 = 4 * (a * y) + x by omega] at hvhigh
    rw [show 2 * (5 * (a * b) + (a * y + x / 2)) + 1 = 10 * (a * b) + (2 * a * y + x) by omega,
      show 4 * (a * y) + 2 * (x / 2) + 1 = 4 * (a * y) + x by omega] at huhigh
    exact ⟨hvhigh, huhigh⟩

theorem eq_of_words (hwords : ∀ row < b, ∀ k < a, WordsOf bytes out a b row k)
    (hwords' : ∀ row < b, ∀ k < a, WordsOf bytes out' a b row k)
    (hout : out.length = 24 * (a * b)) (hout' : out'.length = 24 * (a * b)) : out = out' := by
  have hword : ∀ i < 6 * (a * b), uint32.load out i = uint32.load out' i := by
    intro i hi
    obtain ⟨row, hrow, k, hk, hmem⟩ := exists_blockIndex hi
    have h := hwords row hrow k hk
    have h' := hwords' row hrow k hk
    have hcases : i ∈ (blockIndices a b row k).take 4 ∨ i = 5 * (a * b) + (a * row + k) ∨
        i = 4 * (a * b) + (a * row + k) := by
      simpa [blockIndices, or_assoc] using hmem
    rcases hcases with hi | rfl | rfl
    · rw [h.luma i hi, h'.luma i hi]
    · rw [h.u, h'.u]
    · rw [h.v, h'.v]
  refine eq_of_load_u8 (by omega) fun k hk => ?_
  have h := hword (k / 4) (by omega)
  rw [uint32_load (by omega), uint32_load (by omega)] at h
  have hb := fun m j => byteAt_lt m (4 * (k / 4) + j)
  have h0 := hb out 0
  have h1 := hb out 1
  have h2 := hb out 2
  have h3 := hb out 3
  have h0' := hb out' 0
  have h1' := hb out' 1
  have h2' := hb out' 2
  have h3' := hb out' 3
  rw [Nat.add_zero] at h0 h0'
  rw [u8_load, u8_load]
  show (byteAt out k : Int) = byteAt out' k
  rcases (by omega : k % 4 = 0 ∨ k % 4 = 1 ∨ k % 4 = 2 ∨ k % 4 = 3) with hmod | hmod | hmod | hmod
  · rw [show k = 4 * (k / 4) by omega]
    omega
  · rw [show k = 4 * (k / 4) + 1 by omega]
    omega
  · rw [show k = 4 * (k / 4) + 2 by omega]
    omega
  · rw [show k = 4 * (k / 4) + 3 by omega]
    omega

/-- What `llconv_yuyv_packed_u8s16` makes of an image: it stores every word of the planes once,
a luma sample is its byte times 128, and a chroma sample is the sum of the two bytes above each
other times 128, with the top bit flipped.  `llconv_uyvy_packed_u8s16` makes the same of the
image with the bytes of each pair exchanged. -/
theorem packed_planes {w h : Nat} (hw : 0 < w) (hw4 : w % 4 = 0) (hh : h % 2 = 0)
    (hsize : w * h + w * h / 4 < 2 ^ 32) (hsrc : src.length = 2 * (w * h))
    (hdst : dst.length = 3 * (w * h)) (hdst' : dst'.length = 3 * (w * h)) :
    Once uint32 (3 * (w * h) / 4) (llconvYuyvPackedU8s16 w h) ∧
      ∃ out, runSteps src (llconvYuyvPackedU8s16 w h) dst = some out ∧
        (∀ n < w * h, s16.load out n = 128 * u8.load src (2 * n : Nat)) ∧
        (∀ y < h / 2, ∀ x < w / 2,
          s16.load out (w * h + (w / 2 * y + x) : Nat) =
              128 * (u8.load src (4 * (w / 2 * (2 * y) + x) + 3 : Nat) +
                u8.load src (4 * (w / 2 * (2 * y + 1) + x) + 3 : Nat)) - 2 ^ 15 ∧
            s16.load out (w * h + w * h / 4 + (w / 2 * y + x) : Nat) =
              128 * (u8.load src (4 * (w / 2 * (2 * y) + x) + 1 : Nat) +
                u8.load src (4 * (w / 2 * (2 * y + 1) + x) + 1 : Nat)) - 2 ^ 15) ∧
        runSteps (exchangeBytes src) (llconvUyvyPackedU8s16 w h) dst' = some out := by
  obtain ⟨a, rfl⟩ : ∃ a, w = 4 * a := ⟨w / 4, by omega⟩
  obtain ⟨b, rfl⟩ : ∃ b, h = 2 * b := ⟨h / 2, by omega⟩
  have harea : 4 * a * (2 * b) = 8 * (a * b) := by ring
  rw [harea] at hsize hsrc hdst hdst' ⊢
  have ha : 0 < a := by omega
  have hsize' : 10 * (a * b) < 2 ^ 32 := by omega
  have hyuyv : llconvYuyvPackedU8s16 (4 * a) (2 * b) = stepsFor b fun row => stepsFor a fun k =>
      packedBlock evenBytes oddBytes (4 * a) (2 * b) (4 * a * row) (2 * k) :=
    packedLoops_eq ha hsize'
  have hlen := length_exchangeBytes src
  rw [hyuyv, show 3 * (8 * (a * b)) / 4 = 6 * (a * b) by omega]
  refine ⟨once_packed hsize', ?_⟩
  obtain ⟨out, hrun⟩ := runSteps_isSome_iff.mpr
    (@fits_packed a b evenBytes oddBytes src.length dst.length hsize' (by omega) (by omega))
  have hfits' : Fits (llconvUyvyPackedU8s16 (4 * a) (2 * b)) (exchangeBytes src).length
      dst'.length := fun st hst =>
    fits_packed hsize' (by omega) (by omega) st ((mem_uyvy ha hsize').mp hst)
  obtain ⟨out', hrun'⟩ := runSteps_isSome_iff.mpr hfits'
  have hwords : ∀ row < b, ∀ k < a, WordsOf src out a b row k := fun row hrow k hk =>
    wordsOf_of_run readsAs_yuyv hsize' (by omega) (fun _ => Iff.rfl) hrow hk hrun
  have hwords' : ∀ row < b, ∀ k < a, WordsOf src out' a b row k := fun row hrow k hk =>
    wordsOf_of_run readsAs_uyvy hsize' (by omega) (fun _ => mem_uyvy ha hsize') hrow hk hrun'
  have hout := length_runSteps hrun
  have hout' := length_runSteps hrun'
  refine ⟨out, hrun, fun n hn => luma_of_words hwords (by omega) hn, fun y hy x hx => ?_, ?_⟩
  · obtain ⟨hv, hu⟩ := chroma_of_words hwords (by omega) (x := x) (y := y) (by omega) (by omega)
    have hhalf : 4 * a / 2 = 2 * a := by omega
    have hupper : 2 * a * (2 * y) + x = 4 * (a * y) + x := by ring
    have hlower : 2 * a * (2 * y + 1) + x = 4 * (a * y) + x + 2 * a := by ring
    rw [show 10 * (a * b) = 8 * (a * b) + 8 * (a * b) / 4 by omega] at hu
    rw [hhalf, hupper, hlower, hv, hu]
    simp only [chromaSum, u8_load, byteAt]
    exact ⟨by push_cast; rfl, by push_cast; rfl⟩
  · rw [hrun', eq_of_words hwords hwords' (by omega) (by omega)]

/-- A picture of one block. -/
theorem packed_planes_block :
    Once uint32 (3 * (4 * 2) / 4) (llconvYuyvPackedU8s16 4 2) ∧
      ∃ out, runSteps (List.replicate 16 7) (llconvYuyvPackedU8s16 4 2) (List.replicate 24 0) =
          some out ∧
        (∀ n : Nat, n < 4 * 2 → s16.load out n = 128 * u8.load (List.replicate 16 7) (2 * n : Nat)) ∧
        (∀ y : Nat, y < 2 / 2 → ∀ x : Nat, x < 4 / 2 →
          s16.load out (4 * 2 + (4 / 2 * y + x) : Nat) =
              128 * (u8.load (List.replicate 16 7) (4 * (4 / 2 * (2 * y) + x) + 3 : Nat) +
                u8.load (List.replicate 16 7) (4 * (4 / 2 * (2 * y + 1) + x) + 3 : Nat)) - 2 ^ 15 ∧
            s16.load out (4 * 2 + 4 * 2 / 4 + (4 / 2 * y + x) : Nat) =
              128 * (u8.load (List.replicate 16 7) (4 * (4 / 2 * (2 * y) + x) + 1 : Nat) +
                u8.load (List.replicate 16 7) (4 * (4 / 2 * (2 * y + 1) + x) + 1 : Nat)) -
                  2 ^ 15) ∧
        runSteps (exchangeBytes (List.replicate 16 7)) (llconvUyvyPackedU8s16 4 2)
          (List.replicate 24 1) = some out :=
  packed_planes (w := 4) (h := 2) (by decide) (by decide) (by decide) (by decide) rfl rfl rfl

end Routines

end PureDataPacket
