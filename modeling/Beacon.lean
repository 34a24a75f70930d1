import Beacon.Bytes
import Beacon.Chain.Block
import Beacon.Chain.Operations
import Beacon.Chain.Registry
import Beacon.Chain.State
import Beacon.Clock
import Beacon.Commitment
import Beacon.Constants
import Beacon.DepositChain.Contract
import Beacon.DepositChain.DevChain
import Beacon.DepositChain.Log
import Beacon.DepositChain.Tracker
import Beacon.Duties.Call
import Beacon.Duties.Client
import Beacon.Duties.Duty
import Beacon.Duties.Execution
import Beacon.Duties.Failure
import Beacon.Duties.Forks
import Beacon.Duties.Loading
import Beacon.Duties.Process
import Beacon.Duties.Rehearsal
import Beacon.Duties.Retry
import Beacon.Duties.Schedule
import Beacon.Duties.Script
import Beacon.Duties.Settings
import Beacon.Duties.Timeline
import Beacon.Environment
import Beacon.Events.Bus
import Beacon.Events.Event
import Beacon.Gate.Admission
import Beacon.Gate.Basic
import Beacon.Json.Basic
import Beacon.Json.Catalogue
import Beacon.Json.Causes
import Beacon.Json.Entities
import Beacon.Json.Form
import Beacon.Json.Node
import Beacon.Json.Parser
import Beacon.Json.Patch
import Beacon.Json.Printer
import Beacon.Json.Records
import Beacon.Json.Script
import Beacon.Json.Settings
import Beacon.Keccak
import Beacon.LocalChain
import Beacon.Node.Assignments
import Beacon.Node.BeaconNode
import Beacon.Node.DevKeys
import Beacon.Node.DevNode
import Beacon.Node.Devnet
import Beacon.Node.Genesis
import Beacon.Node.Head
import Beacon.Node.Settings
import Beacon.Node.Workbench
import Beacon.Outcome
import Beacon.Production.Assembly
import Beacon.Production.Pools
import Beacon.Proofs.AdvanceSafety
import Beacon.Proofs.Advancing
import Beacon.Proofs.Attempts
import Beacon.Proofs.Binding.Trees
import Beacon.Proofs.Binding.Values
import Beacon.Proofs.BlockEffects
import Beacon.Proofs.BlockSafety
import Beacon.Proofs.Checkpoints
import Beacon.Proofs.Constants
import Beacon.Proofs.DepositChain.Adoption
import Beacon.Proofs.DepositChain.Choices
import Beacon.Proofs.DepositChain.Followed
import Beacon.Proofs.DepositChain.Records
import Beacon.Proofs.DepositChain.Watch
import Beacon.Proofs.DepositChain.Window
import Beacon.Proofs.Deposits
import Beacon.Proofs.Digests
import Beacon.Proofs.Duties.Accounts
import Beacon.Proofs.Duties.Callers
import Beacon.Proofs.Duties.Clients
import Beacon.Proofs.Duties.Desk
import Beacon.Proofs.Duties.Entries
import Beacon.Proofs.Duties.LoadClients
import Beacon.Proofs.Duties.LoadedDuties
import Beacon.Proofs.Duties.Loads
import Beacon.Proofs.Duties.Lookups
import Beacon.Proofs.Duties.Replies
import Beacon.Proofs.Duties.Retries
import Beacon.Proofs.Duties.Rounds
import Beacon.Proofs.Duties.Service
import Beacon.Proofs.Duties.SingleFlight
import Beacon.Proofs.Duties.Turns
import Beacon.Proofs.Duties.Window
import Beacon.Proofs.EffectiveBalances
import Beacon.Proofs.Events.Audience
import Beacon.Proofs.Finality
import Beacon.Proofs.FinalityRules
import Beacon.Proofs.Gate.Crowd
import Beacon.Proofs.Gate.Turnstile
import Beacon.Proofs.History
import Beacon.Proofs.Incentives
import Beacon.Proofs.Issuance
import Beacon.Proofs.Json.Documents
import Beacon.Proofs.Json.Forms
import Beacon.Proofs.Json.Texts
import Beacon.Proofs.Justification
import Beacon.Proofs.Lifecycle
import Beacon.Proofs.LoneVoter
import Beacon.Proofs.Lookahead
import Beacon.Proofs.Membership
import Beacon.Proofs.Packing
import Beacon.Proofs.Payouts
import Beacon.Proofs.Production.Assembling
import Beacon.Proofs.Production.Counts
import Beacon.Proofs.Production.Pooling
import Beacon.Proofs.Production.Producer
import Beacon.Proofs.Progress
import Beacon.Proofs.Rewards
import Beacon.Proofs.SafeConstants
import Beacon.Proofs.Serving.Assigned
import Beacon.Proofs.Serving.Assignments
import Beacon.Proofs.Serving.AttestationData
import Beacon.Proofs.Serving.Heads
import Beacon.Proofs.Serving.Publishing
import Beacon.Proofs.Serving.Rolls
import Beacon.Proofs.Serving.Stability
import Beacon.Proofs.SlotTimeline
import Beacon.Proofs.SoleVoter
import Beacon.Proofs.SquareRoot
import Beacon.Proofs.Transition.Amendments
import Beacon.Proofs.Transition.Attestations
import Beacon.Proofs.Transition.Ballots
import Beacon.Proofs.Transition.Blocks
import Beacon.Proofs.Transition.Chronicles
import Beacon.Proofs.Transition.Committees
import Beacon.Proofs.Transition.Epochs
import Beacon.Proofs.Transition.Inclusions
import Beacon.Proofs.Transition.Judgements
import Beacon.Proofs.Transition.MachineForms
import Beacon.Proofs.Transition.Ordering
import Beacon.Proofs.Transition.Partition
import Beacon.Proofs.Transition.Registry
import Beacon.Proofs.Transition.Runs
import Beacon.Proofs.Transition.Slots
import Beacon.Proofs.Transition.Support
import Beacon.Proofs.Transition.Tracking
import Beacon.Proofs.Transition.Verdicts
import Beacon.Proofs.Transition.Votes
import Beacon.Proofs.VoteSets
import Beacon.Proofs.VotingPeriods
import Beacon.SquareRoot
import Beacon.Subnets
import Beacon.Transition.Committees
import Beacon.Transition.Engine
import Beacon.Transition.Epochs
import Beacon.Transition.Operations
import Beacon.Transition.Rejection
import Beacon.Transition.Slots
