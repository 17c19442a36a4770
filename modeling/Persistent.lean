import Persistent.Delay
import Persistent.ExceptionInfo
import Persistent.HashedKey
import Persistent.Namespace
import Persistent.Proofs.Bulk
import Persistent.Proofs.Carrier
import Persistent.Proofs.Delay.Once
import Persistent.Proofs.Derivations
import Persistent.Proofs.Map.Extensional
import Persistent.Proofs.Map.History
import Persistent.Proofs.Map.Invariant
import Persistent.Proofs.Map.Walks
import Persistent.Proofs.Namespace.Census
import Persistent.Proofs.Namespace.History
import Persistent.Proofs.Seq.Ahead
import Persistent.Proofs.Seq.Session
import Persistent.Proofs.Set.Algebra
import Persistent.Proofs.Text.Enclosed
import Persistent.Proofs.Text.Quoted
import Persistent.Proofs.Value.Advancing
import Persistent.Proofs.Value.Derivations
import Persistent.Proofs.Value.Interchange
import Persistent.Proofs.Value.Linking
import Persistent.Proofs.Value.MapLaws
import Persistent.Proofs.Value.Parting
import Persistent.Proofs.Value.Plain
import Persistent.Proofs.Value.Printing
import Persistent.Proofs.Value.Readable
import Persistent.Proofs.Value.Rebuilding
import Persistent.Proofs.Vector.Slices
import Persistent.Proofs.Map.Merging
import Persistent.Value.Collection
import Persistent.Value.Display
import Persistent.Proofs.Value.Lockstep
import Persistent.Proofs.Value.Written
import Persistent.Proofs.Value.Looking
import Persistent.Proofs.Value.Opening
import Persistent.Proofs.Value.Showing
import Persistent.Proofs.Value.Founded
import Persistent.Proofs.Value.Founding
import Persistent.Proofs.Value.Limits
import Persistent.Proofs.Value.Attaching
import Persistent.Proofs.Value.Displaying
import Persistent.Proofs.Value.Demanding
import Persistent.Proofs.Value.Walking
import Persistent.Proofs.Value.Pairing
