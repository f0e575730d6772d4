import ScriptHost.ErrorDerive.Expansion
import ScriptHost.Heap.Equality
import ScriptHost.Main
import ScriptHost.Proofs.RoundTrip
import ScriptHost.Proofs.SelfDelimiting
import ScriptHost.Proofs.Relocation
import ScriptHost.Proofs.FreshTree
import ScriptHost.Proofs.Reencoding
import ScriptHost.Proofs.Closed
import ScriptHost.Proofs.SameContent
import ScriptHost.Proofs.Footprint
import ScriptHost.Proofs.HeapCall
import ScriptHost.Proofs.Isolation
import ScriptHost.Proofs.ClosedRuns
import ScriptHost.Proofs.Gating
import ScriptHost.Proofs.Charges
import ScriptHost.Proofs.Dispatch
import ScriptHost.Proofs.CallingContexts
import ScriptHost.Proofs.FirstFault
import ScriptHost.Proofs.WritingWork
import ScriptHost.Proofs.ComparingWork
import ScriptHost.Proofs.Mirroring
import ScriptHost.Proofs.FaultPlaces
import ScriptHost.Proofs.CodecCalls
import ScriptHost.Proofs.LastBadKey
import ScriptHost.Proofs.Balance
import ScriptHost.Proofs.IntegerPadding
import ScriptHost.Proofs.VarIntForms
import ScriptHost.Proofs.HexAddress
import ScriptHost.Proofs.InsertionOrder
import ScriptHost.Proofs.SameTree
import ScriptHost.Proofs.CommandLine
import ScriptHost.Proofs.Bindings
import ScriptHost.Proofs.Derivation
import ScriptHost.Proofs.Placeholders
import ScriptHost.Proofs.Conversions
import ScriptHost.Proofs.Formatter
