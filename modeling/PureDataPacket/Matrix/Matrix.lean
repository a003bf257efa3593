/-
# `PureDataPacket.Matrix.Matrix` — matrix packets

A matrix packet keeps a `t_matrix` in the rest of its header: the dimensions,
and the four views through which the matrix library reads and writes.  A view
is a raw pointer.  `_pdp_matrix_init` aims the four at the data of the packet
whose header they are in; nothing else in the system aims them, but
`pdp_packet_clone_rw` may copy them with the header of another packet.

`Packet` does not have these words, so a `MatrixPool` has them beside the pool.
A pointer is a packet and an offset into its data, which is exact as long as
the packet is not deleted.

The numbers themselves stay bytes.  What the matrix library computes is a
parameter: it is told where everything is, and says which elements it writes.
-/
import PureDataPacket.Kernel.Factory
import PureDataPacket.Lib.Bytes

namespace PureDataPacket

open Pool

/-! ## Element types and sizes -/

/-- `PDP_MATRIX`. -/
def pdpMatrix : Nat := 7

/-- `PDP_MATRIX_TYPE_RFLOAT`. -/
def pdpMatrixTypeRFLOAT : Nat := 1

/-- `PDP_MATRIX_TYPE_CFLOAT`. -/
def pdpMatrixTypeCFLOAT : Nat := 2

/-- `PDP_MATRIX_TYPE_RDOUBLE`. -/
def pdpMatrixTypeRDOUBLE : Nat := 3

/-- `PDP_MATRIX_TYPE_CDOUBLE`. -/
def pdpMatrixTypeCDOUBLE : Nat := 4

/-- The bytes of an element; an unknown type has none. -/
def elementSize (type : Nat) : Nat :=
  if type = pdpMatrixTypeRFLOAT then 4
  else if type = pdpMatrixTypeCFLOAT then 8
  else if type = pdpMatrixTypeRDOUBLE then 8
  else if type = pdpMatrixTypeCDOUBLE then 16
  else 0

/-- `_pdp_matrix_mdata_byte_size`.  The number of elements is a `u32`; the rest
is computed in `size_t`. -/
def pdpMatrixMdataByteSize (rows columns type : Nat) : Nat :=
  u32 (rows * columns) * elementSize type

/-- `_pdp_matrix_pdata_vector_size`. -/
def pdpMatrixPdataVectorSize (rows columns : Nat) : Nat :=
  if columns < rows then rows else columns

/-- Conversion of an `int` to `size_t`. -/
def sizeT (n : Int) : Nat := (n % 2 ^ 64).toNat

/-! ## The subheader -/

/-- An address in the data of a packet. -/
structure DataPointer where
  packet : Int
  offset : Int
deriving DecidableEq

/-- `gsl_block`. -/
structure GslBlock where
  size : Nat
  data : DataPointer
deriving DecidableEq

/-- `gsl_vector`; `block` is the packet whose block it points to. -/
structure GslVector where
  size : Nat
  stride : Nat
  data : DataPointer
  block : Int
  owner : Nat
deriving DecidableEq

/-- `gsl_matrix`. -/
structure GslMatrix where
  gslRows : Nat
  gslColumns : Nat
  tda : Nat
  data : DataPointer
  block : Int
  owner : Nat
deriving DecidableEq

/-- `gsl_permutation`. -/
structure GslPermutation where
  size : Nat
  data : DataPointer
deriving DecidableEq

/-- `t_matrix`. -/
structure TMatrix where
  type : Nat
  rows : Nat
  columns : Nat
  block : GslBlock
  vector : GslVector
  matrix : GslMatrix
  perm : GslPermutation
  signum : Int
deriving DecidableEq

/-- The pool, with the `t_matrix` of every header. -/
structure MatrixPool where
  pool : Pool
  subheader : Int → TMatrix

/-- What a `TMatrix` is in a header that has none. -/
def TMatrix.cleared : TMatrix where
  type := 0
  rows := 0
  columns := 0
  block := ⟨0, ⟨-1, 0⟩⟩
  vector := ⟨0, 0, ⟨-1, 0⟩, -1, 0⟩
  matrix := ⟨0, 0, 0, ⟨-1, 0⟩, -1, 0⟩
  perm := ⟨0, ⟨-1, 0⟩⟩
  signum := 0

/-- The system before the first packet. -/
def matrixPoolSetup (classList : List PdpClass) (malloc : Nat → Option (Nat → UInt8)) :
    MatrixPool where
  pool := pdpPacketSetup classList malloc
  subheader := fun _ => .cleared

/-! ## Writing through a pointer -/

/-- The data area with `l` copied to an offset. -/
def DataArea.blitAt (a : DataArea) (off : Nat) (l : List UInt8) (h : off + l.length ≤ a.size) :
    DataArea where
  bytes := blit a.bytes off l
  size_lt := by
    rw [length_blit h]
    exact a.size_lt

@[simp] theorem DataArea.size_blitAt (a : DataArea) (off : Nat) (l : List UInt8)
    (h : off + l.length ≤ a.size) : (a.blitAt off l h).size = a.size := length_blit h

/-- Stores from an address on.  To store nothing is no access. -/
def writeBytes (dst : DataPointer) (l : List UInt8) (s : Pool) : Except Fault Pool :=
  if l = [] then .ok s
  else
    match s.pdpPacketHeader dst.packet with
    | none => .error .nullPointer
    | some p =>
        if h : 0 ≤ dst.offset ∧ dst.offset.toNat + l.length ≤ p.data.size then
          .ok (s.put dst.packet (some { p with data := p.data.blitAt dst.offset.toNat l h.2 }))
        else .error .outOfBounds

/-! ## Construction -/

/-- The words between `matrix` and the dimensions. -/
def matrixTypeName (type : Nat) : Option (List Char) :=
  if type = pdpMatrixTypeRFLOAT then some "/float/real".toList
  else if type = pdpMatrixTypeCFLOAT then some "/float/complex".toList
  else if type = pdpMatrixTypeRDOUBLE then some "/double/real".toList
  else if type = pdpMatrixTypeCDOUBLE then some "/double/complex".toList
  else none

/-- The description that is put together from a subheader. -/
def matrixDescription (rows columns type : Nat) : Symbol :=
  match matrixTypeName type with
  | none => "matrix/unknown".toList
  | some name => "matrix".toList ++ name ++ '/' :: printDim rows ++ 'x' :: printDim columns

/-- `_pdp_matrix_get_description`. -/
def pdpMatrixGetDescription (header : Meta) (m : TMatrix) : Symbol :=
  match header.desc with
  | some d => d
  | none =>
      if header.type = pdpMatrix then matrixDescription m.rows m.columns m.type
      else "unknown".toList

/-- `matrix_bytesize` in `_pdp_matrix_init`, an `int`. -/
@[irreducible] def matrixBytesize (rows columns type : Nat) : Int :=
  toInt32 (pdpMatrixMdataByteSize rows columns type)

/-- `permsize` in `_pdp_matrix_init`, an `int`. -/
@[irreducible] def permsize (rows columns : Nat) : Int :=
  toInt32 (pdpMatrixPdataVectorSize rows columns)

/-- The subheader that `_pdp_matrix_init` fills in. -/
def initialSubheader (dst : Int) (rows columns type : Nat) : TMatrix where
  type := type
  rows := rows
  columns := columns
  block := ⟨sizeT (matrixBytesize rows columns type), ⟨dst, 0⟩⟩
  vector := ⟨if columns = 1 then rows else columns, 1, ⟨dst, 0⟩, dst, 0⟩
  matrix := ⟨rows, columns, columns, ⟨dst, 0⟩, dst, 0⟩
  perm := ⟨sizeT (permsize rows columns), ⟨dst, matrixBytesize rows columns type⟩⟩
  signum := -1

/-- The header that goes with it. -/
def initialHeader (header : Meta) (m : TMatrix) : Meta :=
  { header with theclass := some matrixClass, desc := some (pdpMatrixGetDescription header m) }

/-- The identity permutation of `n` numbers, each of them a `size_t`. -/
def identityBytes (n : Nat) : List UInt8 := (List.range n).flatMap fun i => le32 i ++ le32 0

/-- The stores of `_pdp_matrix_init`, given the subheader and the two `int`s. -/
def initWith (dst : Int) (m : TMatrix) (matrixBytesize permsize : Int) (w : MatrixPool) :
    Except Fault MatrixPool :=
  match w.pool.pdpPacketHeader dst with
  | none => .error .nullHeader
  | some header =>
      match writeBytes ⟨dst, matrixBytesize⟩ (identityBytes permsize.toNat) w.pool with
      | .error e => .error e
      | .ok s =>
          match writeHeader dst (initialHeader header.toMeta m) s with
          | .error e => .error e
          | .ok s => .ok ⟨s, Function.update w.subheader dst m⟩

/-- `_pdp_matrix_init`. -/
def pdpMatrixInit (dst : Int) (rows columns type : Nat) (w : MatrixPool) :
    Except Fault MatrixPool :=
  initWith dst (initialSubheader dst rows columns type) (matrixBytesize rows columns type)
    (permsize rows columns) w

/-- `dsize` in `pdp_packet_new_matrix`, an `int` at each step. -/
@[irreducible] def matrixDsize (rows columns type : Nat) : Int :=
  toInt32 (matrixBytesize rows columns type + 8 * pdpMatrixPdataVectorSize rows columns)

/-- `pdp_packet_new_matrix`.  `pdp_packet_new` takes the size for an
`unsigned int`. -/
def pdpPacketNewMatrix (rows columns type : Nat) (w : MatrixPool) :
    Except Fault (Int × MatrixPool) :=
  if matrixBytesize rows columns type = 0 then .ok (-1, w)
  else
    match pdpPacketNew pdpMatrix (ofInt32 (matrixDsize rows columns type)) w.pool with
    | .error e => .error e
    | .ok (p, s) =>
        if p = -1 then .ok (-1, { w with pool := s })
        else
          match pdpMatrixInit p rows columns type { w with pool := s } with
          | .error e => .error e
          | .ok w => .ok (p, w)

/-! ## Clones and copies -/

/-- The manual clone of `pdp_packet_clone_rw`.  The header it copies has the
views in it. -/
def cloneHeader (handle : Int) (w : MatrixPool) : Except Fault (Int × MatrixPool) :=
  match w.pool.pdpPacketHeader handle with
  | none => .error .nullHeader
  | some header =>
      match pdpPacketNew header.type header.data.size w.pool with
      | .error e => .error e
      | .ok (newHandle, s) =>
          if newHandle = -1 then .ok (-1, { w with pool := s })
          else
            match memcpyHeader newHandle handle s with
            | .error e => .error e
            | .ok s =>
                .ok (newHandle,
                  ⟨s, Function.update w.subheader newHandle (w.subheader handle)⟩)

/-- `pdp_packet_clone_rw`. -/
def matrixCloneRw (handle : Int) (w : MatrixPool) : Except Fault (Int × MatrixPool) :=
  match w.pool.pdpPacketHeader handle with
  | none => .ok (-1, w)
  | some header =>
      match pdpPacketReuse header.desc w.pool with
      | .error e => .error e
      | .ok (newHandle, s) =>
          if newHandle ≠ -1 then .ok (newHandle, { w with pool := s })
          else
            match (pdpFactoryNewpacket header.desc).run s with
            | .error e => .error e
            | .ok (newHandle, s) =>
                if newHandle ≠ -1 then .ok (newHandle, { w with pool := s })
                else cloneHeader handle { w with pool := s }

/-- `sizeof(t_pdp)` on a 64 bit machine. -/
def sizeofPdp : Nat := 104

/-- `_pdp_matrix_copy`.  `dst + PDP_HEADER_SIZE` is as many headers behind
`dst`, not as many bytes. -/
def pdpMatrixCopy (dst src : Int) (w : MatrixPool) : Except Fault MatrixPool :=
  let m := w.subheader src
  match pdpMatrixInit dst m.rows m.columns m.type w with
  | .error e => .error e
  | .ok w =>
      match w.pool.pdpPacketHeader src with
      | none => .error .nullHeader
      | some header =>
          let off := pdpHeaderSize * sizeofPdp - pdpHeaderSize
          if header.data.size = 0 ∨ off + header.data.size ≤ header.data.size then
            match writeBytes ⟨dst, off⟩ (header.data.bytes.drop off) w.pool with
            | .error e => .error e
            | .ok s => .ok { w with pool := s }
          else .error .outOfBounds

/-- `pdp_packet_copy_rw`.  It calls `copy(header, new_header)`, and the method
takes the destination first. -/
def matrixCopyRw (handle : Int) (w : MatrixPool) : Except Fault (Int × MatrixPool) :=
  match w.pool.pdpPacketHeader handle with
  | none => .ok (-1, w)
  | some header =>
      if header.flags &&& pdpFlagDonotcopy ≠ 0 then .ok (-1, w)
      else
        match matrixCloneRw handle w with
        | .error e => .error e
        | .ok (newHandle, w) =>
            if newHandle = -1 then .ok (-1, w)
            else
              match header.theclass.bind (·.copy) with
              | some .pdpMatrixCopy =>
                  match pdpMatrixCopy handle newHandle w with
                  | .error e => .error e
                  | .ok w => .ok (newHandle, w)
              | some _ => .ok (newHandle, w)
              | none =>
                  match memcpyData newHandle header.data.bytes w.pool with
                  | .error e => .error e
                  | .ok s => .ok (newHandle, { w with pool := s })

/-- `pdp_packet_mark_unused`. -/
def MatrixPool.markUnused (w : MatrixPool) (packet : Int) : MatrixPool :=
  { w with pool := pdpPacketMarkUnused packet w.pool }

/-- `pdp_packet_replace_with_writable`: the new value of `*packet`. -/
def matrixReplaceWithWritable (packet : Int) (w : MatrixPool) : Except Fault (Int × MatrixPool) :=
  if (w.pool.pdpPacketHeader packet).any (·.users = 1) then .ok (packet, w)
  else
    match matrixCopyRw packet w with
    | .error e => .error e
    | .ok (newP, w) => .ok (newP, w.markUnused packet)

/-! ## Writing through the views -/

/-- The four views of a matrix packet. -/
inductive View where
  | block | vector | matrix | perm
deriving DecidableEq

def TMatrix.pointer (m : TMatrix) : View → DataPointer
  | .block => m.block.data
  | .vector => m.vector.data
  | .matrix => m.matrix.data
  | .perm => m.perm.data

/-- The bytes that may be reached through a view. -/
def TMatrix.extent (m : TMatrix) : View → Nat
  | .block => m.block.size
  | .vector => m.vector.size * m.vector.stride * elementSize m.type
  | .matrix => m.matrix.gslRows * m.matrix.tda * elementSize m.type
  | .perm => m.perm.size * 8

/-- `VALID_MATRIX_HEADER`: the subheader of a matrix packet, of a type if one is
asked for. -/
def validMatrixHeader (w : MatrixPool) (packet : Int) (mtype : Nat) : Option TMatrix :=
  match w.pool.pdpPacketHeader packet with
  | none => none
  | some header =>
      if header.type ≠ pdpMatrix then none
      else if mtype ≠ 0 ∧ (w.subheader packet).type ≠ mtype then none
      else some (w.subheader packet)

/-- `pdp_packet_matrix_get_type`. -/
def pdpPacketMatrixGetType (w : MatrixPool) (packet : Int) : Nat :=
  match validMatrixHeader w packet 0 with
  | some m => m.type
  | none => 0

/-- A store of the matrix library: bytes at an offset from where a view points. -/
structure ViewStore where
  view : View
  offset : Nat
  bytes : List UInt8

/-- One store through a view of a matrix packet.  The library keeps to the
extent of the view that it is given. -/
def storeThrough (packet : Int) (x : ViewStore) (w : MatrixPool) : Except Fault MatrixPool :=
  match validMatrixHeader w packet 0 with
  | none => .error .nullPointer
  | some m =>
      if x.offset + x.bytes.length ≤ m.extent x.view then
        let dst := m.pointer x.view
        match writeBytes { dst with offset := dst.offset + x.offset } x.bytes w.pool with
        | .error e => .error e
        | .ok s => .ok { w with pool := s }
      else .error .undefined

def storesThrough (packet : Int) : List ViewStore → MatrixPool → Except Fault MatrixPool
  | [], w => .ok w
  | x :: l, w =>
      match storeThrough packet x w with
      | .error e => .error e
      | .ok w => storesThrough packet l w

/-- `gsl_linalg_LU_solve` and its complex variant: whether it fails, and what it
stores through the vector of the result. -/
abbrev LuSolver := (m v rv : TMatrix) → MatrixPool → Bool × List (Nat × List UInt8)

/-- `pdp_packet_matrix_LU_solve`. -/
def pdpPacketMatrixLUSolve (solver : LuSolver) (pMatrix pVector : Int) (w : MatrixPool) :
    Except Fault (Int × MatrixPool) :=
  let type := pdpPacketMatrixGetType w pMatrix
  match matrixCloneRw pVector w with
  | .error e => .error e
  | .ok (pResultVector, w) =>
      match validMatrixHeader w pMatrix type, validMatrixHeader w pVector type,
          validMatrixHeader w pResultVector type with
      | some m, some v, some rv =>
          if type = pdpMatrixTypeRDOUBLE ∨ type = pdpMatrixTypeCDOUBLE then
            match storesThrough pResultVector
                ((solver m v rv w).2.map fun x => ⟨.vector, x.1, x.2⟩) w with
            | .error e => .error e
            | .ok w' =>
                if (solver m v rv w).1 then .ok (-1, w'.markUnused pResultVector)
                else .ok (pResultVector, w')
          else .ok (-1, w.markUnused pResultVector)
      | _, _, _ => .ok (-1, w.markUnused pResultVector)

end PureDataPacket
