/-
# `PureDataPacket.Kernel.Packet` — the packet pool

The pool is a growable array of packets; a handle is an index into it.  A
packet is a header and a data area.  `users` counts its references, and a
packet without users waits to be reused: the fifo attached to its type
description remembers its handle.  The fifo is only a hint.  `pdp_packet_new`
takes unused packets of the right size without looking at it, and
`pdp_packet_delete` empties a slot without telling it.

Each operation below is one critical section of the pool lock, as a function
on `Pool` that returns a `Fault` where the C code has no defined behaviour.
`PDP_ASSERT` is compiled out by default, so no operation checks its caller.

Not modelled: the subheader words that only the texture, 3D context and matrix
code read, the `wakeup` methods (every one of them is empty) and `sleep` (no
class has one).
-/
import Mathlib.Logic.Function.Basic
import PureDataPacket.Lib.Program
import PureDataPacket.Lib.CInt
import PureDataPacket.Kernel.Symbol

namespace PureDataPacket

/-! ## Packets -/

/-- `PDP_HEADER_SIZE`. -/
def pdpHeaderSize : Nat := 256

/-- `PDP_FLAG_DONOTCOPY`. -/
def pdpFlagDonotcopy : Nat := 1

/-- The constructors that a class can have as its `create` method. -/
inductive FactoryMethod where
  | pdpImageFactory | pdpBitmapFactory | pdpMatrixFactory
deriving DecidableEq

/-- The `copy` methods of the classes. -/
inductive CopyMethod where
  | pdpMatrixCopy | pdpTexCopy | threeDcontextCopy
deriving DecidableEq

/-- `t_pdp_class`.  Of `cleanup` only its presence matters to the pool. -/
structure PdpClass where
  type : Option Symbol
  create : Option FactoryMethod
  copy : Option CopyMethod
  cleanup : Bool
deriving DecidableEq

/-- The words of `info` that the image and bitmap subheaders share.  A bitmap
has its `bpp` where an image has its `depth`. -/
structure Info where
  encoding : Nat
  width : Nat
  height : Nat
  depth : Nat
  chanmask : Nat
deriving DecidableEq

/-- The header fields that a constructor fills in. -/
structure Meta where
  type : Nat
  desc : Option Symbol
  flags : Nat
  theclass : Option PdpClass
  info : Info
deriving DecidableEq

/-- The bytes behind a header.  `pdp_alloc` takes an `int`, so header and data
together stay below `2 ^ 31`. -/
@[ext] structure DataArea where
  bytes : List UInt8
  size_lt : bytes.length + pdpHeaderSize < 2 ^ 31
deriving DecidableEq

namespace DataArea

/-- `pdp_packet_data_size`. -/
def size (a : DataArea) : Nat := a.bytes.length

/-- A new block of `n` bytes, as `malloc` left it. -/
def ofFill (n : Nat) (h : n + pdpHeaderSize < 2 ^ 31) (fill : Nat → UInt8) : DataArea where
  bytes := (List.range n).map fill
  size_lt := by simpa using h

/-- `memcpy` of `l` to the start of the area. -/
def overwrite (a : DataArea) (l : List UInt8) (h : l.length ≤ a.size) : DataArea where
  bytes := l ++ a.bytes.drop l.length
  size_lt := by
    have := a.size_lt
    simp only [size] at h
    simp only [List.length_append, List.length_drop]
    omega

@[simp] theorem size_ofFill (n : Nat) (h : n + pdpHeaderSize < 2 ^ 31) (fill : Nat → UInt8) :
    (ofFill n h fill).size = n := by
  simp [size, ofFill]

theorem empty_size_lt : ([] : List UInt8).length + pdpHeaderSize < 2 ^ 31 := by decide

end DataArea

/-- `t_pdp` and the data area behind it. -/
structure Packet extends Meta where
  users : Nat
  data : DataArea
deriving DecidableEq

/-- `header->size`. -/
def Packet.size (header : Packet) : Nat := header.data.size + pdpHeaderSize

/-- `memset(header, 0, PDP_HEADER_SIZE)`, then `type` and `users` set. -/
def Packet.fresh (datatype : Nat) (data : DataArea) : Packet where
  type := datatype
  desc := none
  flags := 0
  theclass := none
  info := ⟨0, 0, 0, 0, 0⟩
  users := 1
  data := data

/-- `header->theclass && header->theclass->cleanup`. -/
def Packet.hasCleanup (header : Packet) : Bool :=
  match header.theclass with
  | some c => c.cleanup
  | none => false

/-! ## The pool -/

/-- What can go wrong in the C code without being reported. -/
inductive Fault where
  /-- the header of a handle without a packet is dereferenced -/
  | nullHeader
  /-- the description of a packet that has none is dereferenced -/
  | nullSymbol
  /-- the result of a failed `malloc` is written to -/
  | nullPointer
  /-- an access outside of an allocated block -/
  | outOfBounds
  /-- `pdp_list_pop` on an empty list -/
  | emptyPop
  /-- an `int` overflow, a division by zero or a block copy of a negative size -/
  | undefined
deriving DecidableEq

/-- The state under the pool lock, the class list and the C heap.  `malloc k`
is the outcome of the `k`-th request: a failure, or a block and what is in it. -/
structure Pool where
  pdpPool : List (Option Packet)
  reusefifo : Symbol → List Int
  classList : List PdpClass
  malloc : Nat → Option (Nat → UInt8)
  mallocs : Nat
  size_pos : 0 < pdpPool.length

/-- `PDP_INITIAL_POOL_SIZE`. -/
def pdpInitialPoolSize : Nat := 64

/-- `pdp_packet_setup`, with the classes that the type modules then register. -/
def pdpPacketSetup (classList : List PdpClass) (malloc : Nat → Option (Nat → UInt8)) : Pool where
  pdpPool := List.replicate pdpInitialPoolSize none
  reusefifo := fun _ => []
  classList := classList
  malloc := malloc
  mallocs := 0
  size_pos := by decide

namespace Pool

/-- `pdp_pool_size`. -/
def pdpPoolSize (s : Pool) : Nat := s.pdpPool.length

/-- `pdp_packet_header`. -/
def pdpPacketHeader (s : Pool) (handle : Int) : Option Packet :=
  if 0 ≤ handle ∧ handle < s.pdpPoolSize then s.pdpPool.getD handle.toNat none else none

/-- `pdp_pool[handle] = x`. -/
def put (s : Pool) (handle : Int) (x : Option Packet) : Pool where
  pdpPool := s.pdpPool.set handle.toNat x
  reusefifo := s.reusefifo
  classList := s.classList
  malloc := s.malloc
  mallocs := s.mallocs
  size_pos := by
    rw [List.length_set]
    exact s.size_pos

/-- `s_reusefifo = l` for one symbol. -/
def setFifo (s : Pool) (d : Symbol) (l : List Int) : Pool :=
  { s with reusefifo := Function.update s.reusefifo d l }

/-- One more request to `malloc`. -/
def tick (s : Pool) : Pool := { s with mallocs := s.mallocs + 1 }

/-- The array of `_pdp_pool_expand_nolock`: the old one and as many empty slots. -/
def grow (s : Pool) : Pool where
  pdpPool := s.pdpPool ++ List.replicate s.pdpPoolSize none
  reusefifo := s.reusefifo
  classList := s.classList
  malloc := s.malloc
  mallocs := s.mallocs
  size_pos := by
    rw [List.length_append]
    exact Nat.lt_of_lt_of_le s.size_pos (Nat.le_add_right _ _)

end Pool

open Pool

/-! ## Creation -/

/-- `_pdp_pool_expand_nolock`.  `pdp_alloc` takes an `int`: a larger request
is a negative number for it, which `malloc` refuses. -/
def pdpPoolExpandNolock (s : Pool) : Except Fault Pool :=
  if 2 ^ 31 ≤ 2 * s.pdpPoolSize * 8 then .error .nullPointer
  else
    match s.malloc s.mallocs with
    | none => .error .nullPointer
    | some _ => .ok s.tick.grow

/-- `_pdp_packet_alloc_nolock`.  The header is cleared before anybody looks at
the size, so a size that wrapped below the header's overruns the block. -/
def pdpPacketAllocNolock (datatype datasize : Nat) (s : Pool) :
    Except Fault (Option Packet × Pool) :=
  let totalsize := u32 (datasize + pdpHeaderSize)
  if hi : totalsize < 2 ^ 31 then
    match s.malloc s.mallocs with
    | none => .ok (none, s.tick)
    | some fill =>
        if lo : pdpHeaderSize ≤ totalsize then
          let data := DataArea.ofFill (totalsize - pdpHeaderSize) (by omega) fill
          .ok (some (.fresh datatype data), s.tick)
        else .error .outOfBounds
  else .ok (none, s.tick)

def firstEmpty (s : Pool) : Option Nat := s.pdpPool.findIdx? Option.isNone

/-- The body of the loop of `_pdp_packet_create_nolock`, once it has a slot. -/
def createAt (datatype datasize slot : Nat) (s : Pool) : Except Fault (Int × Pool) :=
  match pdpPacketAllocNolock datatype datasize s with
  | .error e => .error e
  | .ok (none, s) => .ok (-1, s)
  | .ok (some header, s) => .ok (slot, s.put slot header)

/-- `pdp_packet_create`.  After an expansion the search goes on where it
stopped: at the first of the new slots. -/
def pdpPacketCreate (datatype datasize : Nat) (s : Pool) : Except Fault (Int × Pool) :=
  match firstEmpty s with
  | some slot => createAt datatype datasize slot s
  | none =>
      match pdpPoolExpandNolock s with
      | .error e => .error e
      | .ok s' => createAt datatype datasize s.pdpPoolSize s'

/-- The test of `pdp_packet_new` on a header. -/
def reapable (datasize : Nat) (header : Packet) : Bool :=
  header.users = 0 && header.size = u32 (datasize + pdpHeaderSize) && !header.hasCleanup

/-- The first packet from `slot` on that passes a test. -/
def findPacketFrom (test : Packet → Bool) : List (Option Packet) → Nat → Option (Nat × Packet)
  | [], _ => none
  | none :: rest, slot => findPacketFrom test rest (slot + 1)
  | some header :: rest, slot =>
      if test header then some (slot, header) else findPacketFrom test rest (slot + 1)

/-- `pdp_packet_new`. -/
def pdpPacketNew (datatype datasize : Nat) (s : Pool) : Except Fault (Int × Pool) :=
  match findPacketFrom (reapable datasize) s.pdpPool 0 with
  | some (packet, header) => .ok (packet, s.put packet (some (.fresh datatype header.data)))
  | none => pdpPacketCreate datatype datasize s

/-! ## The reuse fifos -/

/-- `_pdp_packet_save_nolock`, given the description of the packet. -/
def pdpPacketSaveNolock (packet : Int) (desc : Symbol) (s : Pool) : Pool :=
  if packet ∈ s.reusefifo desc then s
  else s.setFifo desc (packet :: s.reusefifo desc)

/-- The loop of `pdp_packet_reuse` over the fifo of `typeDescription`.  A
stale handle is saved to another fifo, so the loop's own only gets shorter. -/
def reuseFrom (typeDescription : Symbol) : List Int → Pool → Except Fault (Int × Pool)
  | [], s => .ok (-1, s)
  | packet :: l, s =>
      let s := s.setFifo typeDescription l
      match s.pdpPacketHeader packet with
      | none => .error .nullHeader
      | some header =>
          if header.users = 0 then
            match header.desc with
            | none => .error .nullSymbol
            | some desc =>
                if pdpTypeDescriptionMatch desc typeDescription then
                  .ok (packet, s.put packet (some { header with users := 1 }))
                else reuseFrom typeDescription l (pdpPacketSaveNolock packet desc s)
          else reuseFrom typeDescription l s

/-- `pdp_packet_reuse`. -/
def pdpPacketReuse (typeDescription : Option Symbol) (s : Pool) : Except Fault (Int × Pool) :=
  match typeDescription with
  | none => .ok (-1, s)
  | some d => reuseFrom d (s.reusefifo d) s

/-! ## References -/

/-- `pdp_packet_copy_ro`.  The counter is an `unsigned int`. -/
def pdpPacketCopyRo (handle : Int) (s : Pool) : Int × Pool :=
  match s.pdpPacketHeader handle with
  | some header => (handle, s.put handle (some { header with users := u32 (header.users + 1) }))
  | none => (-1, s)

/-- `pdp_packet_mark_unused`. -/
def pdpPacketMarkUnused (handle : Int) (s : Pool) : Pool :=
  match s.pdpPacketHeader handle with
  | none => s
  | some header =>
      if 1 < header.users then s.put handle (some { header with users := header.users - 1 })
      else
        let s := s.put handle (some { header with users := 0 })
        match header.desc with
        | none => s
        | some desc => pdpPacketSaveNolock handle desc s

/-- `pdp_packet_delete`. -/
def pdpPacketDelete (handle : Int) (s : Pool) : Except Fault Pool :=
  match s.pdpPacketHeader handle with
  | none => .error .nullHeader
  | some _ => .ok (s.put handle none)

/-- `pdp_packet_writable`. -/
def pdpPacketWritable (packet : Int) (s : Pool) : Bool :=
  match s.pdpPacketHeader packet with
  | none => false
  | some h => h.users = 1

/-! ## Writing through a header or a data pointer -/

/-- Assignments to the fields of a header. -/
def writeHeader (handle : Int) (m : Meta) (s : Pool) : Except Fault Pool :=
  match s.pdpPacketHeader handle with
  | none => .error .nullHeader
  | some header => .ok (s.put handle (some { header with toMeta := m }))

/-- `memcpy` of the whole header; both packets have the same size. -/
def memcpyHeader (dst src : Int) (s : Pool) : Except Fault Pool :=
  match s.pdpPacketHeader dst, s.pdpPacketHeader src with
  | some d, some h => .ok (s.put dst (some { h with data := d.data }))
  | _, _ => .error .nullHeader

/-- `memcpy` of bytes to the start of a data area. -/
def memcpyData (dst : Int) (bytes : List UInt8) (s : Pool) : Except Fault Pool :=
  match s.pdpPacketHeader dst with
  | none => .error .nullPointer
  | some d =>
      if fits : bytes.length ≤ d.data.size then
        .ok (s.put dst (some { d with data := d.data.overwrite bytes fits }))
      else .error .outOfBounds

end PureDataPacket
