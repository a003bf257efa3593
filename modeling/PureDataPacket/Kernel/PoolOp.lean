/-
# `PureDataPacket.Kernel.PoolOp` — the pool as an instruction set

The code above the pool never holds its lock: it calls one operation, looks at
the result and calls the next.  `PoolOp` lists the operations, `PoolOp.exec`
runs one, and a `PoolProg` is a program over them.
-/
import PureDataPacket.Kernel.Packet

namespace PureDataPacket

/-- One locked operation, or one access through a header or data pointer. -/
inductive PoolOp where
  | create (datatype datasize : Nat)
  | new (datatype datasize : Nat)
  | reuse (typeDescription : Option Symbol)
  | copyRo (handle : Int)
  | markUnused (handle : Int)
  | delete (handle : Int)
  | header (handle : Int)
  | classes
  | writeHeader (handle : Int) (m : Meta)
  | memcpyHeader (dst src : Int)
  | memcpyData (dst : Int) (bytes : List UInt8)

namespace PoolOp

@[reducible] def Answer : PoolOp → Type
  | create _ _ | new _ _ | reuse _ | copyRo _ => Int
  | markUnused _ | delete _ | writeHeader _ _ | memcpyHeader _ _ | memcpyData _ _ => Unit
  | header _ => Option Packet
  | classes => List PdpClass

/-- An operation that only has an effect. -/
def effect : Except Fault Pool → Except Fault (Unit × Pool)
  | .ok s => .ok ((), s)
  | .error e => .error e

def exec : ∀ o : PoolOp, Pool → Except Fault (o.Answer × Pool)
  | create t n, s => pdpPacketCreate t n s
  | new t n, s => pdpPacketNew t n s
  | reuse d, s => pdpPacketReuse d s
  | copyRo h, s => .ok (pdpPacketCopyRo h s)
  | markUnused h, s => .ok ((), pdpPacketMarkUnused h s)
  | delete h, s => effect (pdpPacketDelete h s)
  | header h, s => .ok (s.pdpPacketHeader h, s)
  | classes, s => .ok (s.classList, s)
  | writeHeader h m, s => effect (PureDataPacket.writeHeader h m s)
  | memcpyHeader d h, s => effect (PureDataPacket.memcpyHeader d h s)
  | memcpyData d l, s => effect (PureDataPacket.memcpyData d l s)

end PoolOp

/-- Code that works on the pool through its operations only. -/
abbrev PoolProg (α : Type) : Type := Prog PoolOp PoolOp.Answer Fault α

namespace PoolProg

def run {α : Type} (p : PoolProg α) (s : Pool) : Except Fault (α × Pool) :=
  Prog.run PoolOp.exec p s

/-- The program that performs one operation. -/
def call (o : PoolOp) : PoolProg o.Answer := Prog.call o

@[simp] theorem call_bind {β : Type} (o : PoolOp) (f : o.Answer → PoolProg β) :
    (call o).bind f = .act o f := rfl

end PoolProg

end PureDataPacket
