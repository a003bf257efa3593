import PureDataPacket.Lib.Program
import PureDataPacket.Lib.CInt
import PureDataPacket.Lib.Alloc
import PureDataPacket.Kernel.Symbol
import PureDataPacket.Kernel.Packet
import PureDataPacket.Kernel.PoolOp
import PureDataPacket.Kernel.PoolSpec
import PureDataPacket.Type.Image
import PureDataPacket.Type.Bitmap
import PureDataPacket.Kernel.Factory
import PureDataPacket.Kernel.Ownership
import PureDataPacket.Kernel.Clients
import PureDataPacket.Kernel.ReuseFifo
import PureDataPacket.Kernel.CloneRw
import PureDataPacket.Kernel.Convert
import PureDataPacket.Kernel.ConvertRefs
import PureDataPacket.Kernel.ConvertLoop
import PureDataPacket.Kernel.ConvertFail
import PureDataPacket.Lib.Bytes
import PureDataPacket.Net.Protocol
import PureDataPacket.Net.Receiver
import PureDataPacket.Net.Reception
import PureDataPacket.Net.Sender
import PureDataPacket.Net.Transfer
import PureDataPacket.Image.Llconv
import PureDataPacket.Image.Resample
import PureDataPacket.Type.Conversions
import PureDataPacket.Type.Constructors
import PureDataPacket.Type.Contract
import PureDataPacket.Type.Resampler
import PureDataPacket.Net.Confirmation
import PureDataPacket.Net.Delivery
import PureDataPacket.Lib.Arena
import PureDataPacket.List.Heap
import PureDataPacket.List.Operations
import PureDataPacket.List.Loops
import PureDataPacket.List.Meaning
import PureDataPacket.List.Moving
import PureDataPacket.List.Pointers
import PureDataPacket.Tree.Parser
import PureDataPacket.Tree.Grammar
import PureDataPacket.Tree.Cells
import PureDataPacket.Tree.Parsing
import PureDataPacket.Lib.Strtol
import PureDataPacket.Tree.Printer
import PureDataPacket.Queue.ProcQueue
import PureDataPacket.Queue.Ring
import PureDataPacket.Queue.History
import PureDataPacket.Queue.Service
import PureDataPacket.Queue.Completion
import PureDataPacket.Queue.Nested
import PureDataPacket.Queue.Reentry
import PureDataPacket.Queue.Flush
import PureDataPacket.Queue.Finish
import PureDataPacket.Queue.Wakeup
import PureDataPacket.Dpd.Command
import PureDataPacket.Dpd.CommandLife
import PureDataPacket.Dpd.CommandAccounts
import PureDataPacket.Dpd.Nesting
import PureDataPacket.Dpd.Rendering
import PureDataPacket.Object.Base
import PureDataPacket.Object.Custody
import PureDataPacket.Object.Life
import PureDataPacket.Object.Keeping
import PureDataPacket.Lib.Sweep
import PureDataPacket.Scaf.Automaton
import PureDataPacket.Scaf.Generation
import PureDataPacket.Scaf.Picture
import PureDataPacket.Scaf.Torus
import PureDataPacket.Type.Bounds
import PureDataPacket.Net.Reassembly
import PureDataPacket.Net.Resend
import PureDataPacket.Net.Arrival
import PureDataPacket.Net.SendRing
import PureDataPacket.Net.Chunking
import PureDataPacket.Kernel.CacheOrder
import PureDataPacket.Kernel.Teardown
import PureDataPacket.Kernel.Interning
import PureDataPacket.Image.Imageproc
import PureDataPacket.Kernel.Newpacket
import PureDataPacket.Kernel.Writable
import PureDataPacket.Image.Agreement
import PureDataPacket.Object.Disposal
import PureDataPacket.Object.WindowContext
import PureDataPacket.Scaf.Compiler
import PureDataPacket.Scaf.Optimiser
import PureDataPacket.Lib.Surface
import PureDataPacket.Mesh.Links
import PureDataPacket.Mesh.Medians
import PureDataPacket.Mesh.Runs
import PureDataPacket.List.Moving
import PureDataPacket.List.Pointers
import PureDataPacket.Scaf.Life
import PureDataPacket.Scaf.Shift
import PureDataPacket.Scaf.Rows
import PureDataPacket.Scaf.Packets
import PureDataPacket.Scaf.Threshold
import PureDataPacket.Lib.Lines
import PureDataPacket.Image.Biquad
import PureDataPacket.Image.Filtering
import PureDataPacket.Lib.Repetition
import PureDataPacket.Tree.Syntax
import PureDataPacket.List.Trees
import PureDataPacket.List.References
import PureDataPacket.Scaf.Clones
import PureDataPacket.Scaf.Pair
import PureDataPacket.Lib.Elements
import PureDataPacket.Image.Subsampling
import PureDataPacket.Lib.Lanes
import PureDataPacket.Image.Packed
import PureDataPacket.Lib.Fill
import PureDataPacket.Image.Packing
import PureDataPacket.Image.Scaling
import PureDataPacket.Image.Bilinear
import PureDataPacket.Lib.Raster
import PureDataPacket.Image.Convolution
import PureDataPacket.Image.Accumulators
import PureDataPacket.Lib.Locality
import PureDataPacket.Image.Chebyshev
import PureDataPacket.Lib.Parts
import PureDataPacket.Lib.Exchange
import PureDataPacket.Image.Halving
import PureDataPacket.Type.RoundTrip
import PureDataPacket.Type.Channels
import PureDataPacket.Type.Lossless
import PureDataPacket.Image.Colour
import PureDataPacket.Image.Flip
import PureDataPacket.Type.Dispatch
import PureDataPacket.Type.Resampling
import PureDataPacket.Image.Thresholding
import PureDataPacket.Lib.Assigned
import PureDataPacket.Image.Plasma
import PureDataPacket.Lib.Probing
import PureDataPacket.Mesh.Neighbours
import PureDataPacket.Mesh.Addresses
import PureDataPacket.Object.Holdings
import PureDataPacket.Object.PacketLine
import PureDataPacket.Object.Scan
import PureDataPacket.Object.Rawin
import PureDataPacket.Object.Delay
import PureDataPacket.Object.Loop
import PureDataPacket.Image.Cog
import PureDataPacket.Image.Histo
import PureDataPacket.Matrix.Matrix
import PureDataPacket.Matrix.MatrixSpec
import PureDataPacket.Matrix.Implied
import PureDataPacket.Matrix.CopyRw
import PureDataPacket.Matrix.Views
import PureDataPacket.Object.Metro
import PureDataPacket.Object.UdpReceive
import PureDataPacket.Object.Rawout
import PureDataPacket.Object.RawoutDsp
import PureDataPacket.Object.Scale
import PureDataPacket.Dpd.FanOut
import PureDataPacket.Image.MmxConvolution
import PureDataPacket.Type.Texture
import PureDataPacket.Type.Planes
import PureDataPacket.Kernel.CloneOrigin
import PureDataPacket.Object.Bqt
import PureDataPacket.Lib.Chain
import PureDataPacket.Kernel.SymbolHash
import PureDataPacket.Lib.Memory
import PureDataPacket.Kernel.FastAlloc
import PureDataPacket.Object.Keeper
import PureDataPacket.Queue.V4l
import PureDataPacket.Object.Qt
import PureDataPacket.Image.Values
import PureDataPacket.Object.MatVec
import PureDataPacket.Type.Png
import PureDataPacket.Lib.Gates
import PureDataPacket.Lib.XorLinear
import PureDataPacket.Scaf.Library
import PureDataPacket.Scaf.Spacetime
import PureDataPacket.Image.Noise
import PureDataPacket.Image.Logic
import PureDataPacket.Net.Losses
import PureDataPacket.Object.Pipe
import PureDataPacket.Image.OverTime
import PureDataPacket.Image.Gain
