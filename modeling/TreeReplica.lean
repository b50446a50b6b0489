import TreeReplica.Main
import TreeReplica.Node
import TreeReplica.Proofs.Agreement
import TreeReplica.Proofs.LocalWork
import TreeReplica.Proofs.Unreadable
import TreeReplica.Proofs.WholeFiles
import TreeReplica.Proofs.History
import TreeReplica.Proofs.Winners
import TreeReplica.Proofs.Ledger
import TreeReplica.Proofs.NewerVersions
import TreeReplica.Proofs.Announcements
import TreeReplica.Proofs.Strangers
import TreeReplica.Proofs.Connection
import TreeReplica.Proofs.Transfer.Asking
import TreeReplica.Proofs.Delivery
import TreeReplica.Proofs.Transfer.Answering
import TreeReplica.Proofs.Unfailing
import TreeReplica.Proofs.Fetching
import TreeReplica.Proofs.Fetched
import TreeReplica.Proofs.Message
import TreeReplica.Proofs.Payload
import TreeReplica.Proofs.Stream
import TreeReplica.Proofs.ChunkFrames
import TreeReplica.Proofs.Server
import TreeReplica.Proofs.CatchUps
import TreeReplica.Proofs.Holders
import TreeReplica.Proofs.Interference
import TreeReplica.Proofs.Requests
import TreeReplica.Proofs.Installs
import TreeReplica.Proofs.Calls
import TreeReplica.Proofs.Containment
import TreeReplica.Proofs.Subscriptions
import TreeReplica.Proofs.ServedPieces
import TreeReplica.Proofs.Refusals
import TreeReplica.Proofs.Record.Stored
import TreeReplica.Proofs.Transfer.Received
import TreeReplica.Proofs.Prefixes
