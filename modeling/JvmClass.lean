import JvmClass.Main
import JvmClass.Edit.Build
import JvmClass.Report
import JvmClass.Proofs.Edit.Copies
import JvmClass.Proofs.Edit.FixedPoint
import JvmClass.Proofs.RoundTrip
import JvmClass.Proofs.Extension
import JvmClass.Proofs.WellFormed
import JvmClass.Proofs.Relocation.Movement
import JvmClass.Proofs.Edit.Numbering
import JvmClass.Proofs.Pool.Runs
import JvmClass.Proofs.Pool.Consistent
import JvmClass.Proofs.Pool.Faithful
import JvmClass.Proofs.Pool.Requests
import JvmClass.Proofs.Pool.Coverage
import JvmClass.Proofs.Relocation.Steps
import JvmClass.Proofs.Edit.Unedited
import JvmClass.Proofs.Code.Emitted
import JvmClass.Proofs.Edit.Readable
import JvmClass.Proofs.Pool.Cycles
import JvmClass.Proofs.Code.Flow
import JvmClass.Proofs.Code.Walks
import JvmClass.Proofs.Counts
import JvmClass.Proofs.Edit.Scripts
import JvmClass.Proofs.Descriptors
import JvmClass.Proofs.Code.Assembly
import JvmClass.Proofs.Code.Commands
import JvmClass.Proofs.Code.Labels
import JvmClass.Proofs.Code.Locals
import JvmClass.Proofs.Codec.PoolRoundTrip
import JvmClass.Proofs.Codec.TextEntries
import JvmClass.Proofs.Inspect.Listings
import JvmClass.Proofs.Edit.Strays
import JvmClass.Proofs.Codec.Units
import JvmClass.Proofs.Code.Extents
import JvmClass.Proofs.Code.InterfaceCalls
import JvmClass.Proofs.Relocation.Unplaced
import JvmClass.Proofs.Edit.Recoding
import JvmClass.Proofs.Relocation.Frames
