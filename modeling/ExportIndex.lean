import ExportIndex.Catalog
import ExportIndex.Changes
import ExportIndex.Delta
import ExportIndex.Json.Codec
import ExportIndex.Layout.Key
import ExportIndex.Proofs.Settling
import ExportIndex.Resolution
import ExportIndex.Resource
import ExportIndex.Session
import ExportIndex.Store
import ExportIndex.Proofs.LivePlaces
import ExportIndex.Proofs.Conservation
import ExportIndex.Proofs.Reexport
import ExportIndex.Proofs.Attribution
import ExportIndex.Proofs.Consistency
import ExportIndex.Proofs.Tracking
import ExportIndex.Proofs.Lockstep
import ExportIndex.Proofs.Completion
import ExportIndex.Proofs.Evaluation
import ExportIndex.Proofs.Forest
import ExportIndex.Proofs.Arrangement
import ExportIndex.Proofs.Collapse
import ExportIndex.Proofs.Listing
import ExportIndex.Proofs.Unchanged
import ExportIndex.Proofs.Turns
import ExportIndex.Proofs.Locality
import ExportIndex.Proofs.Hidden
import ExportIndex.Proofs.Replica
import ExportIndex.Proofs.CrossReference
import ExportIndex.Proofs.BuildGuard
import ExportIndex.Proofs.Custody
import ExportIndex.Proofs.RelativePath
import ExportIndex.Proofs.TargetKeys
import ExportIndex.Proofs.Forwarding
import ExportIndex.Proofs.Draining
import ExportIndex.Proofs.Outline
import ExportIndex.Proofs.LocalNames
import ExportIndex.Proofs.InPlace
import ExportIndex.Proofs.Simulation
import ExportIndex.Proofs.FirstOfEach
import ExportIndex.Proofs.Cataloguing
import ExportIndex.Proofs.Difference
import ExportIndex.Proofs.Replacement
import ExportIndex.Proofs.Scheduling
import ExportIndex.Proofs.Addresses
import ExportIndex.Proofs.KeyCollisions
import ExportIndex.Proofs.PackageFolders
import ExportIndex.Proofs.Flattening
import ExportIndex.Proofs.Joining
import ExportIndex.Proofs.Interchange
import ExportIndex.Proofs.RoundTrip
