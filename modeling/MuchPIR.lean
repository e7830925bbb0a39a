import MuchPIR.AggregateLaw
import MuchPIR.CharPointer
import MuchPIR.CharPointerLaw
import MuchPIR.Client
import MuchPIR.ClientSemantics
import MuchPIR.Cppcodec.Block
import MuchPIR.Cppcodec.Canonical
import MuchPIR.Cppcodec.Chunks
import MuchPIR.Cppcodec.DecodeLaw
import MuchPIR.Cppcodec.EncodeLaw
import MuchPIR.Cppcodec.ParseError
import MuchPIR.Cppcodec.Result
import MuchPIR.Cppcodec.RoundTrip
import MuchPIR.Cppcodec.Sizes
import MuchPIR.Cppcodec.Stream
import MuchPIR.Cppcodec.Variant
import MuchPIR.Datum
import MuchPIR.Decoding
import MuchPIR.Display
import MuchPIR.Encoding
import MuchPIR.ExactSeal
import MuchPIR.Executor
import MuchPIR.Expand
import MuchPIR.ExpandLaw
import MuchPIR.ExpandMachine
import MuchPIR.ExpandSemantics
import MuchPIR.ExpandTrace
import MuchPIR.GaloisKeys
import MuchPIR.Hypercube
import MuchPIR.LargeTables
import MuchPIR.Lib.Agree
import MuchPIR.Lib.Cost
import MuchPIR.Lib.HexBytes
import MuchPIR.Lib.HexPoly
import MuchPIR.Lib.Memory
import MuchPIR.Lib.Negacyclic
import MuchPIR.Lib.NegacyclicVector
import MuchPIR.Lib.Prog
import MuchPIR.Lib.Regroup
import MuchPIR.Lib.Slots
import MuchPIR.Machine
import MuchPIR.NullRows
import MuchPIR.Oblivious
import MuchPIR.OddRows
import MuchPIR.QueryArgument
import MuchPIR.QueryDigits
import MuchPIR.Retrieval
import MuchPIR.RowCap
import MuchPIR.SameCalls
import MuchPIR.SavedObjects
import MuchPIR.Seal
import MuchPIR.Server
import MuchPIR.ServerSemantics
import MuchPIR.ServerTrace
import MuchPIR.SlotSafety
import MuchPIR.SlotsHold
import MuchPIR.State
import MuchPIR.StateRecord
import MuchPIR.Uninitialised
import MuchPIR.Work
