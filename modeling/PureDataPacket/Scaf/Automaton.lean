/-
# `PureDataPacket.Scaf.Automaton` — a step of a 2D automaton, and its picture

The cells of a packet are bits, 32 to a word, row after row.  `processCa2D` lists the
blocks of the source in the order in which they are computed; each loads eight words into
`env` and stores two.  `ca2grey` lists its chunks of 16 pixels in the same way.

What is put at an index is checked by the converter only: a chunk that is not inside both
data areas is `none`, as are a product that is no `int` and a picture that `pdp_alloc` is not
asked for with an `int`.  Otherwise `malloc` does not fail.  Packets of 1D automata, and the
checks that a packet exists, are left out.
-/
import PureDataPacket.Lib.Sweep
import PureDataPacket.Scaf.Machine
import PureDataPacket.Type.Image

namespace PureDataPacket

/-- A packet: what its header says, and its words. -/
structure CaPacket where
  width : Nat
  height : Nat
  offset : Nat
  data : Int → BitVec 32

/-- The object: its two packets, and what its rule runs on.  `saved` is the stack pointer
that the feeder leaves in `env`. -/
structure Ca where
  packets : Int → CaPacket
  packet0 : Int
  packet1 : Int
  caRoutine : Option (Mmx → Mmx)
  tos : Int
  saved : Int
  mmx : Mmx

/-- One call of the rule: the indices in `data0` of `env[0]` to `env[7]`, and where in
`data1` the low word goes; the high word goes one row down. -/
@[ext]
structure Block where
  env : List Int
  dst : Int

namespace Ca

variable (x : Ca)

def data0 (i : Int) : BitVec 32 := (x.packets x.packet0).data i

def header1 : CaPacket := x.packets x.packet1

def setHeader1 (p : CaPacket) : Ca :=
  { x with packets := Function.update x.packets x.packet1 p }

/-- `data1[i] = v`. -/
def setData1 (i : Int) (v : BitVec 32) : Ca :=
  x.setHeader1 { x.header1 with data := Function.update x.header1.data i v }

/-- The words at `DI` when the rule is called. -/
def loadEnv (b : Block) (k : Nat) : BitVec 32 :=
  match b.env[k]? with
  | some i => x.data0 i
  | none => x.mmx.env k

/-- Loads `env`, calls `scaf_feeder` and stores its result. -/
def processBlock (rule : Mmx → Mmx) (dwwidth : Int) (x : Ca) (b : Block) : Ca :=
  let result := Mmx.scafFeeder rule x.tos { x.mmx with env := x.loadEnv b }
  let x := { x with saved := result.2.1, mmx := result.2.2 }
  let x := x.setData1 b.dst (result.1.setWidth 32)
  x.setData1 (b.dst + dwwidth) ((result.1 >>> 32).setWidth 32)

/-- `check_stack`. -/
def checkStack : Ca := if x.saved ≠ x.tos then { x with caRoutine := none } else x

end Ca

/-! ## The blocks -/

section Blocks

variable (dwwidth i j : Int)

def innerBlock : Block where
  env := [i + j, i + j + 1, i + j + dwwidth, i + j + dwwidth + 1, i + j + 2 * dwwidth,
    i + j + 2 * dwwidth + 1, i + j + 2 * dwwidth + dwwidth, i + j + 2 * dwwidth + dwwidth + 1]
  dst := i + j

def lastColumnBlock : Block where
  env := [i + j, j, i + j + dwwidth, j + dwwidth, i + j + 2 * dwwidth, j + 2 * dwwidth,
    i + j + 2 * dwwidth + dwwidth, j + 2 * dwwidth + dwwidth]
  dst := i + j

def lastRowBlock : Block where
  env := [i + j, i + j + 1, i + j + dwwidth, i + j + dwwidth + 1, i, i + 1, i + dwwidth,
    i + dwwidth + 1]
  dst := i + j

def cornerBlock : Block where
  env := [i + j, j, i + j + dwwidth, j + dwwidth, i, 0, i + dwwidth, dwwidth]
  dst := i + j

/-- The blocks in the order of the loops. -/
def blocks (dwwidth height : Int) : List Block :=
  let columns := counter 0 (dwwidth - 1) 1
  let lastColumn := after 0 (dwwidth - 1) 1
  let lastRow := after 0 (dwwidth * (height - 2)) (2 * dwwidth)
  ((counter 0 (dwwidth * (height - 2)) (2 * dwwidth)).flatMap fun j =>
    (columns.map fun i => innerBlock dwwidth i j) ++ [lastColumnBlock dwwidth lastColumn j]) ++
  (columns.map fun i => lastRowBlock dwwidth i lastRow) ++
  [cornerBlock dwwidth lastColumn lastRow]

end Blocks

/-! ## The step -/

/-- The new offset: lines shift up, rows shift left by 16 cells. -/
def shiftOffset (width height offset : Int) : Int :=
  let xoffset := (offset.tmod width + width - 16).tmod width
  let yoffset := (offset.tdiv width + height - 1).tmod height
  yoffset * width + xoffset

namespace Ca

/-- `pdp_ca_process_ca_2D`. -/
def processCa2D (x : Ca) : Ca :=
  match x.caRoutine with
  | none => x
  | some rule =>
      let header0 := x.packets x.packet0
      let width := toInt32 header0.width
      let height := toInt32 header0.height
      let dwwidth := width / 32
      let offset := shiftOffset width height (toInt32 header0.offset)
      let x := x.setHeader1 { x.header1 with offset := ofInt32 offset }
      ((blocks dwwidth height).foldl (processBlock rule dwwidth) x).checkStack

/-- `pdp_ca_swappackets`. -/
def swapPackets (x : Ca) : Ca := { x with packet0 := x.packet1, packet1 := x.packet0 }

end Ca

/-! ## The picture -/

def greyOf (cell : Bool) : BitVec 16 := if cell then 0x7fff#16 else 0#16

/-- The loop of `_pdp_type_ca2grey_convert_word`, with `i` still to do; `dest` is `image`
from `start` on. -/
def convertWord : Nat → BitVec 16 → Int → (Int → BitVec 16) → Int → BitVec 16
  | 0, _, _, image => image
  | i + 1, source, start, image =>
      let pixel := ((source &&& 0x8000#16).sshiftRight 14) >>> 1
      convertWord i (source <<< 1) start (Function.update image (start + i) pixel)

/-- One call of `_pdp_type_ca2grey_convert_word`: the index of its pixels and that of its
source. -/
structure Chunk where
  dst : Int
  src : Int
  deriving DecidableEq

/-- The four loops: top left, top right, bottom left and bottom right. -/
def chunks (w h xoffset yoffset : Int) : List Chunk :=
  let quadrant (ys xs : List Int) (dx dy : Int) : List Chunk :=
    ys.flatMap fun y => xs.map fun x => ⟨x + y, (x + xoffset - dx + y + yoffset - dy) / 16⟩
  let top := counter 0 (h * w - yoffset) w
  let bottom := counter (h * w - yoffset) (h * w) w
  let left := counter 0 (w - xoffset) 16
  let right := counter (w - xoffset) w 16
  quadrant top left 0 0 ++ quadrant top right w 0 ++ quadrant bottom left 0 (w * h) ++
    quadrant bottom right w (w * h)

namespace CaPacket

/-- `source[i]`, for a `source` that points to 16-bit words. -/
def halfword (p : CaPacket) (i : Int) : BitVec 16 :=
  (p.data (i / 2) >>> (16 * (i % 2)).toNat).setWidth 16

/-- A chunk inside both data areas is converted. -/
def convertChunk (p : CaPacket) (s : Int) (image : Int → BitVec 16) (c : Chunk) :
    Option (Int → BitVec 16) :=
  if 0 ≤ c.src ∧ c.src < s / 16 ∧ 0 ≤ c.dst ∧ c.dst + 16 ≤ s then
    some (convertWord 16 (p.halfword c.src) c.dst image)
  else none

/-- What `pdp_packet_new_image_grey` asks `pdp_alloc` for. -/
def pictureSize (p : CaPacket) : Nat := u32 (imageSizeGrey p.width p.height + pdpHeaderSize)

/-- `pdp_type_ca2grey`; `fresh` is what is in the packet for the picture. -/
def ca2grey (p : CaPacket) (fresh : Int → BitVec 16) : Option (Int → BitVec 16) :=
  let w := toInt32 p.width
  let h := toInt32 p.height
  (intMul w h).bind fun s =>
    if pdpHeaderSize ≤ p.pictureSize ∧ p.pictureSize < 2 ^ 31 then
      let offset : Int := p.offset
      (chunks w h (offset.tmod w) (offset.tdiv w * w)).foldl
        (fun image c => image.bind fun image => p.convertChunk s image c) (some fresh)
    else none

end CaPacket

end PureDataPacket
