import Enroute.Proto.FetchWritten
import Enroute.GraphStore.DepthCut
import Enroute.Lattice.Sweeping
import Enroute.Proto.HiddenRefs
import Enroute.Ingest.PushReport
import Enroute.Packfile.DeltaRoundTrip
import Enroute.Retrieve.Joining
import Enroute.Retrieve.RoundTrips
import Enroute.Ingest.Rebuilt
import Enroute.Ingest.LayoutWritten
import Enroute.Ingest.Locate
import Enroute.GraphStore.Ancestors
import Enroute.Graph.Ancestry
import Enroute.Proto.CommitRun
import Enroute.Retrieve.TreeWalk
import Enroute.GraphStore.Gather
import Enroute.Lattice.Cover
import Enroute.Lattice.PlanSound
import Enroute.IngestLambda.Frames
import Enroute.Remote.Push
import Enroute.Ingest.DependencyOrder
import Enroute.Api.Signature
import Enroute.Store.ObjectWriter
import Enroute.Ingest.Materialise
import Enroute.IngestLambda.Handoff
import Enroute.Packfile.RollingHash
import Enroute.Api.Listing
import Enroute.Api.ChangedFiles
