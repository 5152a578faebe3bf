import Splice.Assembly
import Splice.FileTree
import Splice.Main
import Splice.Proofs.Acceptance
import Splice.Proofs.Adjacency
import Splice.Proofs.Copies
import Splice.Proofs.Deployment
import Splice.Proofs.Disassembly
import Splice.Proofs.Folding
import Splice.Proofs.Guarded.Injection
import Splice.Proofs.LockStep
import Splice.Proofs.Log
import Splice.Proofs.Memory
import Splice.Proofs.Refusal
import Splice.Proofs.Resolution
import Splice.Proofs.Scan
import Splice.Proofs.Sightings
import Splice.Proofs.Stored
import Splice.Proofs.Termination
