/-
# `PureDataPacket.Kernel.Factory` — new packets, clones and copies

The operations of the packet manager that are built from others:
`pdp_factory_newpacket` and the three ways to get a packet that one may write
to.  None of them holds the pool lock; each is a program over the pool.
-/
import PureDataPacket.Type.Bitmap

namespace PureDataPacket

open PoolProg (call)

/-- `matrix_class`; its factory makes nothing. -/
def matrixClass : PdpClass where
  type := some "matrix/*/*/*".toList
  create := some .pdpMatrixFactory
  copy := some .pdpMatrixCopy
  cleanup := true

def textureClass : PdpClass where
  type := some "texture/*/*".toList
  create := none
  copy := some .pdpTexCopy
  cleanup := true

/-- The class of 3D context packets. -/
def contextClass : PdpClass where
  type := some "3Dcontext/*".toList
  create := none
  copy := some .threeDcontextCopy
  cleanup := true

/-- `(*c->create)(type)`. -/
def FactoryMethod.create (type : Symbol) : FactoryMethod → PoolProg Int
  | pdpImageFactory => PureDataPacket.pdpImageFactory type
  | pdpBitmapFactory => PureDataPacket.pdpBitmapFactory type
  | pdpMatrixFactory => pure (-1)

/-- `c->type && pdp_type_description_match(type, c->type)`. -/
def PdpClass.handles (c : PdpClass) (type : Symbol) : Bool :=
  match c.type with
  | some t => pdpTypeDescriptionMatch type t
  | none => false

/-- The class loop of `pdp_factory_newpacket`. -/
def createFromClass (classes : List PdpClass) (type : Symbol) : PoolProg Int :=
  match classes.find? (·.handles type) with
  | none => pure (-1)
  | some c =>
      match c.create with
      | some create => create.create type
      | none => pure (-1)

/-- `pdp_factory_newpacket`.  Without a type, the first class that has one
makes the match dereference a null pointer. -/
def pdpFactoryNewpacket (type : Option Symbol) : PoolProg Int := do
  let p ← call (.reuse type)
  if p ≠ -1 then pure p
  else do
    let classes ← call .classes
    match type with
    | some type => createFromClass classes type
    | none => if classes.any (·.type.isSome) then .crash .nullSymbol else pure (-1)

/-- The manual clone at the end of `pdp_packet_clone_rw`: a packet of the same
size, with the header of the other. -/
def cloneManually (handle : Int) : PoolProg Int := do
  match ← call (.header handle) with
  | none => .crash .nullHeader
  | some header => do
      let newHandle ← call (.new header.type header.data.size)
      match ← call (.header newHandle) with
      | none => pure newHandle
      | some _ => do
          call (.memcpyHeader newHandle handle)
          pure newHandle

/-- `pdp_packet_clone_rw`. -/
def pdpPacketCloneRw (handle : Int) : PoolProg Int := do
  match ← call (.header handle) with
  | none => pure (-1)
  | some header => do
      let newHandle ← call (.reuse header.desc)
      if newHandle ≠ -1 then pure newHandle
      else do
        let newHandle ← pdpFactoryNewpacket header.desc
        if newHandle ≠ -1 then pure newHandle
        else cloneManually handle

/-- What `pdp_packet_copy_rw` does with the `copy` method of the class.  It
passes the source as the destination.  The matrix method then adds
`PDP_HEADER_SIZE` to two header pointers, not to two addresses, and copies
between places that are in neither packet; the other methods have nothing to
copy. -/
def runCopyMethod (newHandle : Int) : CopyMethod → PoolProg Int
  | .pdpMatrixCopy => .crash .outOfBounds
  | .pdpTexCopy => pure newHandle
  | .threeDcontextCopy => pure newHandle

/-- The end of `pdp_packet_copy_rw`. -/
def copyContents (handle newHandle : Int) : PoolProg Int := do
  match ← call (.header handle) with
  | none => .crash .nullHeader
  | some header =>
      match header.theclass.bind (·.copy) with
      | some copy => runCopyMethod newHandle copy
      | none => do
          call (.memcpyData newHandle header.data.bytes)
          pure newHandle

/-- The part of `copyContents` that depends on the class. -/
def copyByClass (newHandle : Int) (header : Packet) : PoolProg Int :=
  match header.theclass.bind (·.copy) with
  | some copy => runCopyMethod newHandle copy
  | none => .act (.memcpyData newHandle header.data.bytes) fun _ => .done newHandle

/-- `pdp_packet_copy_rw`. -/
def pdpPacketCopyRw (handle : Int) : PoolProg Int := do
  match ← call (.header handle) with
  | none => pure (-1)
  | some header =>
      if header.flags &&& pdpFlagDonotcopy ≠ 0 then pure (-1)
      else do
        let newHandle ← pdpPacketCloneRw handle
        if newHandle = -1 then pure (-1)
        else copyContents handle newHandle

/-- `pdp_packet_replace_with_writable`: the new value of `*packet`. -/
def pdpPacketReplaceWithWritable (packet : Int) : PoolProg Int := do
  let header ← call (.header packet)
  if header.any (·.users = 1) then pure packet
  else do
    let newP ← pdpPacketCopyRw packet
    call (.markUnused packet)
    pure newP

end PureDataPacket
