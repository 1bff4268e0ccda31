import Orthotope.CaseTable
import Orthotope.Document
import Orthotope.Flag
import Orthotope.Index.Lemmas
import Orthotope.Layout.Lemmas
import Orthotope.Proofs.Cube.Bulk
import Orthotope.Proofs.Cube.Chain
import Orthotope.Proofs.Cube.Coherence
import Orthotope.Proofs.Cube.Rolls
import Orthotope.Proofs.Store.Made
import Orthotope.Workspace
import Orthotope.Proofs.Dimension.Keys
import Orthotope.Proofs.Cube.Labels
import Orthotope.Proofs.Channel.Requests
import Orthotope.Proofs.Storage.Flat
import Orthotope.Proofs.Channel.Plain
import Orthotope.Proofs.Storage.Chunks
import Orthotope.Proofs.Store.Requests
import Orthotope.Proofs.Channel.Keeps
import Orthotope.Proofs.Channel.Missing
import Orthotope.Proofs.Storage.Sparse
import Orthotope.Proofs.Storage.Gapless
import Orthotope.Proofs.Storage.Ragged
import Orthotope.Proofs.Store.Missing
import Orthotope.Proofs.Cube.Missing
import Orthotope.Proofs.Store.Sparse
import Orthotope.Proofs.Index.Cuts
import Orthotope.Proofs.Cube.Copying
import Orthotope.Proofs.Channel.AllOrNothing
import Orthotope.Proofs.Store.AllOrNothing
import Orthotope.Proofs.Cube.AllOrNothing
import Orthotope.Proofs.BitSet.Positions
import Orthotope.Proofs.BitSet.Edits
import Orthotope.Proofs.Cube.Folding
import Orthotope.Proofs.Channel.Written
import Orthotope.Proofs.Storage.Paths
import Orthotope.Proofs.Store.Ragged
import Orthotope.Proofs.Storage.FileBytes
import Orthotope.Proofs.Store.Mapped
import Orthotope.Proofs.Store.Packed
import Orthotope.Proofs.Cube.Axes
import Orthotope.Proofs.Effect.Alike
import Orthotope.Proofs.Cube.Alike
import Orthotope.Proofs.Store.Identity
import Orthotope.Proofs.Store.Offered
import Orthotope.Proofs.Cube.Casting
import Orthotope.Proofs.Document.RoundTrip
import Orthotope.Proofs.Store.Comparing
import Orthotope.Proofs.Store.Document
import Orthotope.Proofs.Store.Materialized
import Orthotope.Proofs.Accessor.Positions
import Orthotope.Proofs.Cube.Slicing
import Orthotope.Proofs.Cube.Words
import Orthotope.Proofs.Store.WholeSlices
import Orthotope.Proofs.Storage.Depths
import Orthotope.Proofs.Store.MappedBulk
import Orthotope.Proofs.Channel.Readable
import Orthotope.Proofs.Layout.Order
import Orthotope.Proofs.View.Visits
import Orthotope.Proofs.Cube.Visits
import Orthotope.Proofs.Document.Entries
import Orthotope.Proofs.Binary.Order
import Orthotope.Proofs.Channel.Extrema
import Orthotope.Proofs.Cube.Permuting
import Orthotope.Proofs.Store.Extrema
import Orthotope.Proofs.Machine.Rolls
