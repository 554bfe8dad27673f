import ChatMemory.Deployment
import ChatMemory.Json.Printer
import ChatMemory.Storage.Fault
import ChatMemory.Store.Operation
import ChatMemory.Proofs.Acknowledged
import ChatMemory.Proofs.Retry
import ChatMemory.Proofs.Idempotence
import ChatMemory.Proofs.Fairness
import ChatMemory.Proofs.Interleaving
import ChatMemory.Proofs.Tracking
import ChatMemory.Proofs.RoundTrip
import ChatMemory.Proofs.Paging
import ChatMemory.Proofs.Crashes
import ChatMemory.Proofs.Leftovers
import ChatMemory.Proofs.Schedules
import ChatMemory.Proofs.SavedAgain
import ChatMemory.Proofs.Included
import ChatMemory.Proofs.Batches
import ChatMemory.Proofs.LastPlace
import ChatMemory.Proofs.ThreadPages
import ChatMemory.Proofs.Removal
import ChatMemory.Proofs.ThreadHistory
import ChatMemory.Proofs.Replay
import ChatMemory.Proofs.Newest
import ChatMemory.Proofs.Bulk
import ChatMemory.Proofs.BatchOrder
import ChatMemory.Proofs.Commuting
import ChatMemory.Proofs.Isolation
import ChatMemory.Proofs.Ranges
import ChatMemory.Proofs.ScoreMap
import ChatMemory.Proofs.Released
