import Filespace.Json.Entries
import Filespace.Proofs.ShortTransfers
import Filespace.Vfs.Tree
import Filespace.Text.Hex
import Filespace.Main
import Filespace.Proofs.Starting
import Filespace.Proofs.ListingCache
import Filespace.Proofs.LocalListings
import Filespace.Proofs.Confinement
import Filespace.Proofs.AtomicCalls
import Filespace.Proofs.BridgeSafety
import Filespace.Proofs.ListedEntries
import Filespace.Proofs.ExactRemovals
import Filespace.Proofs.OverlaidCopies
import Filespace.Proofs.ReleasedLocks
import Filespace.Proofs.VoidedWrites
import Filespace.Proofs.RememberedSizes
import Filespace.Proofs.ExactOffsets
import Filespace.Proofs.WrittenChanges
