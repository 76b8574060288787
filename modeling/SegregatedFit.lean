import SegregatedFit.Main
import SegregatedFit.Proofs.Allocator.Diagnosis
import SegregatedFit.Proofs.Client.Confluence
import SegregatedFit.Proofs.Client.Damage
import SegregatedFit.Proofs.Client.Failure
import SegregatedFit.Proofs.Client.Fit
import SegregatedFit.Proofs.Client.Release
import SegregatedFit.Proofs.Client.Resize
import SegregatedFit.Proofs.Client.RoundTrip
import SegregatedFit.Proofs.Client.Verdict
import SegregatedFit.Proofs.Command
import SegregatedFit.Proofs.Heap.Navigation
import SegregatedFit.Proofs.Heap.Occupancy
import SegregatedFit.Proofs.Index.Simulation
import SegregatedFit.Proofs.Machine.Request
import SegregatedFit.Proofs.Region.Interleaving
import SegregatedFit.Proofs.Trace.Meaning
import SegregatedFit.Proofs.Trace.Offence
import SegregatedFit.Proofs.Trace.Overlap
import SegregatedFit.Proofs.Trace.Render
