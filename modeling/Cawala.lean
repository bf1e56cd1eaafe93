import Cawala.Model.Account
import Cawala.Model.Entry
import Cawala.Model.Ledger
import Cawala.Model.Address
import Cawala.Model.Topology
import Cawala.Model.Auth
import Cawala.Model.Commit
import Cawala.Model.Netting
import Cawala.Library.Except
import Cawala.Library.TreeMap
import Cawala.Verification.Account
import Cawala.Verification.Ledger
import Cawala.Verification.Accounting
import Cawala.Library.MerkleTree
import Cawala.Model.Concrete
import Cawala.Verification.Inclusion
import Cawala.Verification.Topology
import Cawala.Model.Record
import Cawala.Model.SettleRoute
import Cawala.Verification.Audit
import Cawala.Verification.RouteAgreement
import Cawala.Verification.ExactlyOnce
import Cawala.Verification.LedgerStore
import Cawala.Verification.SettleProof
import Cawala.Model.Replay
import Cawala.Model.Eth
import Cawala.Model.ControlRequest
import Cawala.Model.ControlNode
import Cawala.Model.ControlHandlers
import Cawala.Model.ControlEngine
import Cawala.Model.ControlConcrete
import Cawala.Verification.ControlHandlers
import Cawala.Verification.ControlAdmission
import Cawala.Verification.ControlAuthority
import Cawala.Verification.ControlDesignations
import Cawala.Verification.ControlAnchors
import Cawala.Verification.BrowserPins
import Cawala.Library.Forest
import Cawala.Model.TopologyEdit
import Cawala.Verification.TopologyEdit
import Cawala.Model.CommitmentLog
import Cawala.Verification.Encoding
import Cawala.Verification.CommitmentChain
import Cawala.Verification.Equivocation
import Cawala.Verification.AuthEffects
import Cawala.Model.Message
import Cawala.Verification.Routing
import Cawala.Model.MsgHandler
import Cawala.Verification.HopChain
import Cawala.Verification.Delivery
import Cawala.Verification.Replay
import Cawala.Model.Rotation
import Cawala.Verification.ControlReplay
import Cawala.Verification.Rotation
import Cawala.Verification.Postings
import Cawala.Verification.Acceptance
import Cawala.Verification.Binding
import Cawala.Library.Rounds
import Cawala.Model.MerkleRounds
import Cawala.Model.Claim
import Cawala.Verification.Termination
import Cawala.Verification.Claim
import Cawala.Verification.PlanExecution
import Cawala.Verification.SeenWindows
import Cawala.Verification.SeenHistory
import Cawala.Verification.SeenSidecar
import Cawala.Model.ControlForward
import Cawala.Verification.ControlForward
import Cawala.Library.UnionFind
import Cawala.Model.Partition
import Cawala.Library.Classes
import Cawala.Verification.PartitionRecords
import Cawala.Verification.PartitionComponents
import Cawala.Verification.Partition
import Cawala.Library.FirstIndex
import Cawala.Verification.ValueIndex
import Cawala.Verification.ValueRequests
import Cawala.Verification.AddressLaw
import Cawala.Verification.MirrorAudit
import Cawala.Model.Registry
import Cawala.Verification.Registry
import Cawala.Library.LazyQueue
import Cawala.Model.SettlementManager
import Cawala.Verification.SettlementManager
import Cawala.Verification.FailedOperations
import Cawala.Verification.EdgeClose
import Cawala.Library.Tally
import Cawala.Verification.Collapse
import Cawala.Verification.LogAlteration
import Cawala.Verification.FailedAppends
import Cawala.Library.TextFile
import Cawala.Model.OrderJournal
import Cawala.Verification.OrderJournal
import Cawala.Model.Rebase
import Cawala.Model.BrowserControl
import Cawala.Verification.RebaseOrder
import Cawala.Model.RecordCall
import Cawala.Verification.RecordStore
import Cawala.Verification.RecordRuns
import Cawala.Verification.BrowserProof
import Cawala.Model.BrowserBlob
import Cawala.Verification.BrowserState
import Cawala.Library.Urlencoded
import Cawala.Model.Invite
import Cawala.Verification.Invite
import Cawala.Library.BitString
import Cawala.Model.Mnemonic
import Cawala.Verification.Mnemonic
import Cawala.Verification.AtomicAdmission
import Cawala.Model.NoticeRetry
import Cawala.Verification.NoticeRetry
import Cawala.Library.KeyedSums
import Cawala.Model.SettlePayload
import Cawala.Model.SettleOrigin
import Cawala.Model.SettleSigner
import Cawala.Verification.SettleOrigin
import Cawala.Verification.LeafAnswers
import Cawala.Verification.SettleSigner
import Cawala.Verification.Network
import Cawala.Verification.PrefundPayments
import Cawala.Verification.Layout
import Cawala.Verification.Cascade
import Cawala.Verification.CascadeSafety
import Cawala.Verification.Mirror
import Cawala.Verification.Provenance
import Cawala.Verification.Authorship
import Cawala.Verification.HonestAudit
