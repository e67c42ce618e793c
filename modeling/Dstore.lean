import Dstore.Proofs.Wipe
import Dstore.Proofs.ViewCas
import Dstore.Proofs.Epochs
import Dstore.Proofs.Single
import Dstore.Proofs.Terminate
import Dstore.Proofs.Join
import Dstore.Proofs.Complete
import Dstore.Proofs.Watch
import Dstore.Proofs.Snapshot
import Dstore.Proofs.Offered
import Dstore.Proofs.Worktree.Scan
import Dstore.Proofs.Worktree.Order
import Dstore.Proofs.Worktree.Metadata
import Dstore.Proofs.FastRead
import Dstore.Proofs.Paging
import Dstore.Proofs.Ballots
import Dstore.Proofs.Lease
import Dstore.Proofs.Adopt
import Dstore.Proofs.DropPins
import Dstore.Proofs.Sweep
import Dstore.Proofs.Audit
import Dstore.Proofs.Drops
import Dstore.Proofs.Ramp
import Dstore.Proofs.RefglobPrefix
import Dstore.Proofs.MarkFile
import Dstore.Proofs.Put
import Dstore.Proofs.Negotiate
import Dstore.Proofs.Database
import Dstore.Proofs.Ranges
import Dstore.Proofs.Log2Fix
import Dstore.Proofs.Pull
import Dstore.Proofs.Reported
