/-
# `PureDataPacket.Matrix.Implied` — does a packet hold what its header says?

Whoever walks a packet computes from its header how many bytes there are: so
many planes of `width * height` samples, so many pixels, or so many matrix
elements and a permutation.  A constructor computes the same product in 32
bits, and the header with it; nothing checks that it did not wrap.  (The
constructor of matrices rejects the one wrapped size that is 0.)

`impliedBytes` is the product as a number.  A constructor is right on its
arguments when that number, header included, fits into 32 bits, and also when
the wrapped one is so large that there is no memory for it.  Otherwise there is
a pool, in fact the empty one, in which it writes outside of what it allocated
or returns a packet that is too small.

| | |
| :-- | :-- |
| `RefusedAtOnce` | the number of bytes of the elements of a matrix is 0 modulo `2 ^ 32` |
| `Sized` | nothing wraps, or what wraps is refused |
| `HoldsImplied` | what should be |
| `request_of_fit` | without a wrap the constructors ask for what they need |
| `new_tolerated` | a size that does not wrap, or one that is refused, does not overrun |
-/
import PureDataPacket.Matrix.MatrixSpec
import PureDataPacket.Type.Constructors

namespace PureDataPacket

open Pool

/-! ## What a header implies -/

/-- Planes of 16 bit samples; in `YCrCb`, the two chroma planes together are
half of the first. -/
def impliedByImage (info : Info) : Nat :=
  let size := info.width * info.height
  if info.encoding = pdpImageYV12 then (size + size / 2) * 2
  else if info.encoding = pdpImageGREY then size * 2
  else if info.encoding = pdpImageMCHP then size * info.depth * 2
  else 0

/-- Pixels of a few bytes, or planes of bytes. -/
def impliedByBitmap (info : Info) : Nat :=
  let size := info.width * info.height
  if info.encoding = pdpBitmapYV12 ∨ info.encoding = pdpBitmapI420 then size + size / 2
  else if info.encoding = pdpBitmapGREY then size
  else if info.encoding = pdpBitmapRGB then size * 3
  else if info.encoding = pdpBitmapRGBA then size * 4
  else 0

def matrixBytes (rows columns type : Nat) : Nat :=
  rows * columns * elementSize type + 8 * pdpMatrixPdataVectorSize rows columns

/-- The number of bytes behind a header. -/
def impliedBytes (header : Meta) (m : TMatrix) : Nat :=
  if header.type = pdpImage then impliedByImage header.info
  else if header.type = pdpBitmap then impliedByBitmap header.info
  else if header.type = pdpMatrix then matrixBytes m.rows m.columns m.type
  else 0

/-! ## The constructors -/

/-- A call of a constructor. -/
inductive Construction where
  | picture (kind : PacketKind) (width height depth : Nat)
  | matrix (rows columns type : Nat)

namespace Construction

def run : Construction → MatrixPool → Except Fault (Int × MatrixPool)
  | picture k width height depth, w =>
      match (k.new width height depth).run w.pool with
      | .error e => .error e
      | .ok (r, s) => .ok (r, { w with pool := s })
  | matrix rows columns type, w => pdpPacketNewMatrix rows columns type w

/-- The bytes of a packet with these dimensions. -/
def exactBytes : Construction → Nat
  | picture k width height depth => impliedBytes (k.header width height depth) .cleared
  | matrix rows columns type => matrixBytes rows columns type

/-- The bytes that the constructor computes, in 32 bits. -/
def request : Construction → Nat
  | picture k width height depth => k.dataSize width height depth
  | matrix rows columns type => ofInt32 (matrixDsize rows columns type)

/-- That number, from the dimensions: the exact one modulo `2 ^ 32`, but the
pixels of a planar bitmap and the elements of a matrix are counted in 32 bits,
too. -/
def wrappedBytes : Construction → Nat
  | picture .bitmapYv12 width height _ | picture .bitmapI420 width height _ =>
      (width * height % 2 ^ 32 + width * height % 2 ^ 32 / 2) % 2 ^ 32
  | picture k width height depth => (picture k width height depth).exactBytes % 2 ^ 32
  | matrix rows columns type =>
      (rows * columns % 2 ^ 32 * elementSize type + 8 * pdpMatrixPdataVectorSize rows columns) %
        2 ^ 32

/-- The number of bytes of the elements of a matrix is 0 modulo `2 ^ 32`. -/
def RefusedAtOnce : Construction → Prop
  | picture _ _ _ _ => False
  | matrix rows columns type => rows * columns % 2 ^ 32 * elementSize type % 2 ^ 32 = 0

/-- Nothing wraps, or what wraps is refused. -/
def Sized (c : Construction) : Prop :=
  c.exactBytes + pdpHeaderSize < 2 ^ 32 ∨ 2 ^ 31 ≤ (c.wrappedBytes + pdpHeaderSize) % 2 ^ 32 ∨
    c.RefusedAtOnce

end Construction

/-- A -1, or a packet that holds the bytes that its header implies. -/
def HoldsImplied : Except Fault (Int × MatrixPool) → Prop
  | .error e => Tolerated e
  | .ok (r, w) => r = -1 ∨ ∃ q, w.pool.pdpPacketHeader r = some q ∧
      impliedBytes q.toMeta (w.subheader r) ≤ q.data.size

/-! ## Sizes in 32 bits -/

theorem u32_mul_u32 (a b : Nat) : u32 (u32 a * b) = u32 (a * b) := by
  unfold u32
  rw [Nat.mul_mod, Nat.mod_mod, ← Nat.mul_mod]

theorem request_eq (c : Construction) : c.request = c.wrappedBytes := by
  cases c with
  | matrix rows columns type => exact ofInt32_matrixDsize rows columns type
  | picture k width height depth =>
      cases k with
      | imageYCrCb =>
          show u32 (u32 (u32 (width * height) + u32 (width * height) / 2) * 2) =
            (width * height + width * height / 2) * 2 % 2 ^ 32
          rw [u32_mul_u32]
          unfold u32
          omega
      | imageGrey => exact u32_mul_u32 (width * height) 2
      | imageMulti =>
          show u32 (u32 (u32 (width * height) * depth) * 2) = _
          rw [u32_mul_u32 (width * height), u32_mul_u32]
          rfl
      | bitmapYv12 => rfl
      | bitmapI420 => rfl
      | bitmapGrey =>
          show u32 (u32 (width * height) * 1) = _
          rw [u32_mul_u32, Nat.mul_one]
          rfl
      | bitmapRgb => exact u32_mul_u32 (width * height) 3
      | bitmapRgba => exact u32_mul_u32 (width * height) 4

/-- The number of elements does not wrap if the number of bytes does not. -/
theorem elements_eq {n size : Nat} (h : n * size < 2 ^ 32) : n % 2 ^ 32 * size = n * size := by
  rcases Nat.eq_zero_or_pos size with rfl | hpos
  · rfl
  · rw [Nat.mod_eq_of_lt (Nat.lt_of_le_of_lt (Nat.le_mul_of_pos_right _ hpos) h)]

theorem request_of_fit {c : Construction} (h : c.exactBytes < 2 ^ 32) :
    c.request = c.exactBytes := by
  rw [request_eq]
  cases c with
  | matrix rows columns type =>
      have hsum : rows * columns * elementSize type + 8 * pdpMatrixPdataVectorSize rows columns <
          2 ^ 32 := h
      simp only [Construction.wrappedBytes]
      rw [elements_eq (by omega)]
      exact Nat.mod_eq_of_lt h
  | picture k width height depth =>
      have hhalves : ∀ a, a + a / 2 < 2 ^ 32 →
          (a % 2 ^ 32 + a % 2 ^ 32 / 2) % 2 ^ 32 = a + a / 2 := by
        intro a ha
        omega
      cases k with
      | bitmapYv12 => exact hhalves (width * height) h
      | bitmapI420 => exact hhalves (width * height) h
      | _ => exact Nat.mod_eq_of_lt h

theorem byteSize_eq {rows columns type : Nat} (h : rows * columns * elementSize type < 2 ^ 32) :
    pdpMatrixMdataByteSize rows columns type = rows * columns * elementSize type :=
  elements_eq h

theorem refusedAtOnce_iff (rows columns type : Nat) :
    (Construction.matrix rows columns type).RefusedAtOnce ↔
      matrixBytesize rows columns type = 0 := by
  have hsize : (Construction.matrix rows columns type).RefusedAtOnce ↔
      pdpMatrixMdataByteSize rows columns type % 2 ^ 32 = 0 := Iff.rfl
  rw [hsize]
  unfold matrixBytesize
  rw [toInt32_eq]
  split <;> omega

/-- The request of a call that is not refused at once. -/
theorem request_of_sized {c : Construction} (hsized : c.Sized) (h0 : ¬ c.RefusedAtOnce) :
    c.exactBytes + pdpHeaderSize < 2 ^ 32 ∧ c.request = c.exactBytes ∨
      2 ^ 31 ≤ u32 (c.request + pdpHeaderSize) := by
  rcases hsized with h | h | h
  · exact Or.inl ⟨h, request_of_fit (by omega)⟩
  · rw [request_eq]
    exact Or.inr h
  · exact absurd h h0

theorem request_of_not_sized {c : Construction} (hsized : ¬ c.Sized) :
    2 ^ 32 ≤ c.exactBytes + pdpHeaderSize ∧ u32 (c.request + pdpHeaderSize) < 2 ^ 31 ∧
      ¬ c.RefusedAtOnce := by
  rw [request_eq]
  simp only [Construction.Sized, not_or, Nat.not_lt, Nat.not_le] at hsized
  exact hsized

/-! ## Nothing wraps -/

theorem new_tolerated {t n exact : Nat} {s : Pool} {e : Fault}
    (hn : exact + pdpHeaderSize < 2 ^ 32 ∧ n = exact ∨ 2 ^ 31 ≤ u32 (n + pdpHeaderSize))
    (h : pdpPacketNew t n s = .error e) : Tolerated e := by
  refine pdpPacketNew_tolerated ?_ h
  rcases hn with ⟨hlt, rfl⟩ | hge
  · rw [u32_eq_self hlt]
    exact Nat.le_add_left _ _
  · exact Nat.le_trans (by decide) hge

theorem size_of_sized {n exact : Nat} {data : DataArea}
    (hn : exact + pdpHeaderSize < 2 ^ 32 ∧ n = exact ∨ 2 ^ 31 ≤ u32 (n + pdpHeaderSize))
    (hdata : data.size + pdpHeaderSize = u32 (n + pdpHeaderSize)) : data.size = exact := by
  have hlt := data.size_lt
  rcases hn with ⟨hfit, rfl⟩ | hge
  · rw [u32_eq_self hfit] at hdata
    omega
  · rw [← hdata] at hge
    simp only [DataArea.size] at hge
    omega

theorem holdsImplied_picture {k : PacketKind} {width height depth : Nat}
    (hsized : (Construction.picture k width height depth).Sized) (w : MatrixPool) :
    HoldsImplied ((Construction.picture k width height depth).run w) := by
  have hn := request_of_sized hsized id
  have hk := k.constructs width height depth
  cases hnew : pdpPacketNew k.type (k.dataSize width height depth) w.pool with
  | error e =>
      simp only [Construction.run, hk.error hnew]
      exact new_tolerated hn hnew
  | ok x =>
      obtain ⟨r, s₁⟩ := x
      rcases pdpPacketNew_spec hnew with ⟨rfl, _⟩ | ho
      · simp only [Construction.run, hk.fail hnew]
        exact Or.inl rfl
      · obtain ⟨data, hdata, hputs⟩ := ho.puts
        obtain ⟨s₂, hrun, hputs'⟩ := hk.ok hnew hputs.self
        simp only [Construction.run, hrun]
        refine Or.inr ⟨_, hputs'.self, ?_⟩
        rw [size_of_sized hn hdata]
        exact Nat.le_of_eq (by cases k <;> rfl)

/-- The bytes and the entries of a matrix that fits, as the `int`s they become. -/
theorem ints_of_fit {rows columns type : Nat} (h : matrixBytes rows columns type < 2 ^ 31) :
    matrixBytesize rows columns type = (rows * columns * elementSize type : Nat) ∧
      permsize rows columns = (pdpMatrixPdataVectorSize rows columns : Nat) := by
  have hsum : rows * columns * elementSize type + 8 * pdpMatrixPdataVectorSize rows columns <
      2 ^ 31 := h
  unfold matrixBytesize permsize
  rw [byteSize_eq (by omega)]
  exact ⟨toInt32_of_nat_lt (by omega), toInt32_of_nat_lt (by omega)⟩

theorem impliedBytes_made {w w' : MatrixPool} {rows columns type : Nat} {r : Int}
    (hm : MatrixMade w rows columns type r w') : ∃ q, w'.pool.pdpPacketHeader r = some q ∧
      q.data.size + pdpHeaderSize =
        u32 (ofInt32 (matrixDsize rows columns type) + pdpHeaderSize) ∧
      impliedBytes q.toMeta (w'.subheader r) = matrixBytes rows columns type := by
  obtain ⟨data, hdata, _, hputs⟩ := hm.puts
  refine ⟨_, hputs.self, hdata, ?_⟩
  rw [hm.subheader, Function.update_self]
  rfl

theorem holdsImplied_matrix {rows columns type : Nat}
    (hsized : (Construction.matrix rows columns type).Sized) (w : MatrixPool) :
    HoldsImplied ((Construction.matrix rows columns type).run w) := by
  by_cases h0 : matrixBytesize rows columns type = 0
  · simp only [Construction.run, pdpPacketNewMatrix, if_pos h0]
    exact Or.inl rfl
  · have hn := request_of_sized hsized fun h => h0 ((refusedAtOnce_iff _ _ _).mp h)
    cases hrun : pdpPacketNewMatrix rows columns type w with
    | error e =>
        simp only [Construction.run, hrun]
        simp only [pdpPacketNewMatrix, if_neg h0] at hrun
        split at hrun
        · next hnew =>
            cases hrun
            exact new_tolerated hn hnew
        · next p s hnew =>
            rcases pdpPacketNew_spec hnew with ⟨rfl, _⟩ | ho
            · rw [if_pos rfl] at hrun
              cases hrun
            · rw [if_neg ho.ne_neg_one] at hrun
              obtain ⟨data, hdata, hputs⟩ := ho.puts
              have hsize : data.size = matrixBytes rows columns type := size_of_sized hn hdata
              have hlt := data.size_lt
              have hlt' : matrixBytes rows columns type < 2 ^ 31 := by
                rw [← hsize]
                simp only [DataArea.size]
                omega
              obtain ⟨hb, hp⟩ := ints_of_fit hlt'
              have hpos : 0 ≤ matrixBytesize rows columns type := by
                rw [hb]
                exact Int.natCast_nonneg _
              have hfit : (matrixBytesize rows columns type).toNat +
                  8 * (permsize rows columns).toNat ≤ data.size := by
                rw [hb, hp, Int.toNat_natCast, Int.toNat_natCast]
                exact Nat.le_of_eq hsize.symm
              obtain ⟨w', hinit⟩ := initWith_ok (w := { w with pool := s })
                (m := initialSubheader p rows columns type) hputs.self hpos hfit
              rw [show pdpMatrixInit p rows columns type { w with pool := s } = .ok w' from hinit]
                at hrun
              cases hrun
    | ok x =>
        obtain ⟨r, w'⟩ := x
        simp only [Construction.run, hrun]
        rcases pdpPacketNewMatrix_cases hrun with ⟨rfl, _⟩ | hm
        · exact Or.inl rfl
        · obtain ⟨q, hq, hdata, himplied⟩ := impliedBytes_made hm
          refine Or.inr ⟨q, hq, ?_⟩
          exact Nat.le_of_eq (himplied.trans (size_of_sized hn hdata).symm)

/-! ## Something wraps -/

/-- The empty pool with a heap that never fails. -/
def emptyPool : MatrixPool := matrixPoolSetup [] zeroHeap

theorem pdpPacketNew_empty {t n : Nat} (hn : u32 (n + pdpHeaderSize) < 2 ^ 31) :
    pdpPacketNew t n emptyPool.pool = .error .outOfBounds ∨
      ∃ r s, pdpPacketNew t n emptyPool.pool = .ok (r, s) ∧ HandsOut emptyPool.pool t n r s := by
  have hnew : pdpPacketNew t n emptyPool.pool = createAt t n 0 emptyPool.pool := rfl
  cases h : pdpPacketNew t n emptyPool.pool with
  | error e =>
      rw [hnew] at h
      rw [(createAt_error h).1]
      exact Or.inl rfl
  | ok x =>
      obtain ⟨r, s⟩ := x
      refine Or.inr ⟨r, s, rfl, (pdpPacketNew_spec h).resolve_left fun hr => ?_⟩
      exact pdpPacketNew_ne_neg_one (fun _ _ _ h => by cases h) hn h hr.1

/-- A packet handed out for a size that wrapped is too small. -/
theorem too_small {n exact : Nat} {data : DataArea} (hexact : 2 ^ 32 ≤ exact + pdpHeaderSize)
    (hdata : data.size + pdpHeaderSize = u32 (n + pdpHeaderSize))
    (hn : u32 (n + pdpHeaderSize) < 2 ^ 31) : ¬ exact ≤ data.size := by
  omega

theorem sized_of_picture {k : PacketKind} {width height depth : Nat}
    (h : HoldsImplied ((Construction.picture k width height depth).run emptyPool)) :
    (Construction.picture k width height depth).Sized := by
  refine Classical.byContradiction fun hsized => ?_
  obtain ⟨hexact, hn, _⟩ := request_of_not_sized hsized
  have hk := k.constructs width height depth
  rcases pdpPacketNew_empty hn with hnew | ⟨r, s, hnew, ho⟩
  · simp only [Construction.run, hk.error (s := emptyPool.pool) hnew] at h
    exact h rfl
  · obtain ⟨data, hdata, hputs⟩ := ho.puts
    obtain ⟨s₂, hrun, hputs'⟩ := hk.ok (s := emptyPool.pool) hnew hputs.self
    simp only [Construction.run, hrun] at h
    rcases h with h | ⟨q, hq, hle⟩
    · exact ho.ne_neg_one h
    · cases hputs'.self.symm.trans hq
      refine too_small hexact hdata hn ?_
      refine Nat.le_trans (Nat.le_of_eq ?_) hle
      cases k <;> rfl

theorem pdpPacketNewMatrix_empty {rows columns type : Nat}
    (h0 : matrixBytesize rows columns type ≠ 0)
    (hn : u32 (ofInt32 (matrixDsize rows columns type) + pdpHeaderSize) < 2 ^ 31) :
    pdpPacketNewMatrix rows columns type emptyPool = .error .outOfBounds ∨
      ∃ r w', pdpPacketNewMatrix rows columns type emptyPool = .ok (r, w') ∧ r ≠ -1 := by
  unfold pdpPacketNewMatrix
  rw [if_neg h0]
  rcases pdpPacketNew_empty (t := pdpMatrix) hn with hnew | ⟨r, s, hnew, ho⟩
  · rw [hnew]
    exact Or.inl rfl
  · obtain ⟨data, _, hputs⟩ := ho.puts
    simp only [hnew, if_neg ho.ne_neg_one]
    cases hinit : pdpMatrixInit r rows columns type { emptyPool with pool := s } with
    | error e =>
        have he : e = .outOfBounds :=
          initWith_error (w := { emptyPool with pool := s }) hputs.self hinit
        exact Or.inl (by rw [he])
    | ok w' => exact Or.inr ⟨r, w', rfl, ho.ne_neg_one⟩

theorem sized_of_matrix {rows columns type : Nat}
    (h : HoldsImplied ((Construction.matrix rows columns type).run emptyPool)) :
    (Construction.matrix rows columns type).Sized := by
  refine Classical.byContradiction fun hsized => ?_
  obtain ⟨hexact, hn, hb⟩ := request_of_not_sized hsized
  have h0 : matrixBytesize rows columns type ≠ 0 := fun h =>
    hb ((refusedAtOnce_iff _ _ _).mpr h)
  rcases pdpPacketNewMatrix_empty h0 hn with hrun | ⟨r, w', hrun, hr⟩
  · simp only [Construction.run, hrun] at h
    exact h rfl
  · simp only [Construction.run, hrun] at h
    rcases pdpPacketNewMatrix_cases hrun with ⟨hr', _⟩ | hm
    · exact hr hr'
    · obtain ⟨q, hq, hdata, himplied⟩ := impliedBytes_made hm
      rcases h with h | ⟨q', hq', hle⟩
      · exact hr h
      · cases hq.symm.trans hq'
        rw [himplied] at hle
        exact too_small hexact hdata hn hle

/-- The constructors return -1 or a packet that holds what its header implies,
in every pool, exactly for these dimensions. -/
theorem construction_holdsImplied_iff (c : Construction) :
    (∀ w, HoldsImplied (c.run w)) ↔ c.Sized := by
  cases c with
  | picture k width height depth =>
      exact ⟨fun h => sized_of_picture (h emptyPool), fun h w => holdsImplied_picture h w⟩
  | matrix rows columns type =>
      exact ⟨fun h => sized_of_matrix (h emptyPool), fun h w => holdsImplied_matrix h w⟩

example : (Construction.matrix 2 3 pdpMatrixTypeRDOUBLE).Sized := Or.inl (by decide)

/-- A grey image of 65536 by 65536 is a packet of no bytes. -/
theorem not_construction_holdsImplied :
    ¬ ∀ w, HoldsImplied ((Construction.picture .imageGrey 65536 65536 0).run w) := by
  intro hall
  rcases hall emptyPool with h | ⟨q, hq, hle⟩
  · cases h
  · cases hq
    exact absurd hle (by decide)

end PureDataPacket
