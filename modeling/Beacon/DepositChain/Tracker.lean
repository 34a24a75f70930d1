import Beacon.DepositChain.DevChain

set_option autoImplicit false

/-! # Following the deposit chain

The follower stays a fixed distance behind the head of the deposit chain and keeps one record for
each of the latest blocks up to there. Proposers vote for one of these records: for the one that most
votes of the period already name, else for the newest; a record that counts fewer deposits than the
state does is never voted for. -/

namespace Beacon

/-! ## Settings -/

/-- Settings of the follower. -/
structure DepositConfig where
  /-- Requests that may be outstanding at once. -/
  maxConcurrentRequests : Nat := 5
  /-- Blocks between the head and the newest block that is followed. -/
  followDistance : Nat := 2048
  /-- Blocks that are kept. -/
  maxTrackedBlocks : Nat := 1024
  depositContract : Address := Bytes.zero 20
  deriving DecidableEq, Inhabited

/-- Refuse settings under which nothing could be asked or kept. -/
def DepositConfig.validate (c : DepositConfig) : Attempt InvalidSetting Unit := do
  Attempt.require (c.maxConcurrentRequests ≠ 0) ⟨"max_concurrent_requests", "must be at least 1"⟩
  Attempt.require (c.maxTrackedBlocks ≠ 0) ⟨"max_tracked_blocks", "must be at least 1"⟩

/-! ## The cache -/

/-- A followed block with the record it stands for. -/
structure TrackedBlock where
  block : DepositBlock := {}
  record : ExternalData := {}
  deriving DecidableEq, Inhabited

/-- The followed blocks. -/
structure DepositTracker where
  config : DepositConfig
  /-- In increasing order of numbers, none twice. -/
  blocks : List TrackedBlock := []

namespace DepositTracker

/-- Put a block in its place, over another one with its number. -/
def place (b : TrackedBlock) : List TrackedBlock → List TrackedBlock
  | [] => [b]
  | x :: xs =>
    if b.block.number < x.block.number then b :: x :: xs
    else if b.block.number = x.block.number then b :: xs
    else x :: place b xs

/-- Keep a block and, beyond what may be kept, drop the oldest ones. -/
def insert (t : DepositTracker) (b : TrackedBlock) : DepositTracker :=
  let blocks := place b t.blocks
  { t with blocks := blocks.drop (blocks.length - t.config.maxTrackedBlocks) }

/-- The followed block with the highest number. -/
def newest? (t : DepositTracker) : Option TrackedBlock := t.blocks.getLast?

/-! ## Synchronizing -/

/-- The numbers of the blocks that are missing up to the follow distance behind `head`; what would
not be kept is left out. -/
def missing (t : DepositTracker) (head : Nat) : Checked (List Nat) := do
  if head < t.config.followDistance then return []
  let target := head - t.config.followDistance
  let windowStart := target - (t.config.maxTrackedBlocks - 1)
  let start ← match t.newest? with
    | some newest => pure (max (← Word.add newest.block.number 1) windowStart)
    | none => pure windowStart
  return List.range' start (target + 1 - start)

/-- Ask for a block and for the record that the contract gives as of it. -/
def fetch (t : DepositTracker) (e : Endpoint) (number : Nat) : Attempt RequestError TrackedBlock := do
  let ask (c : ContractCall) := e.call t.config.depositContract c.encode number
  let block ← e.blockByNumber number
  let root ← ask .depositRoot
  let count ← ask .depositCount
  return { block
           record := { depositRoot := ← decodeDepositRoot root
                       depositCount := ← decodeDepositCount count
                       blockHash := block.hash } }

/-- Ask for the blocks that are missing, one ticket of the gate for each, in the order in which the
gate admits them. The answer is what was fetched and the gate afterwards. -/
def request (t : DepositTracker) (e : Endpoint) (gate : Gate Nat) :
    Attempt RequestError (List TrackedBlock × Gate Nat) := do
  let head ← e.latestBlock
  let numbers ← t.missing head.number
  let (admitted, gate) := gate.serve numbers
  return (← admitted.mapM (t.fetch e), gate)

/-- Fetch what is missing and keep it. The answer is how many blocks were fetched; when a request
fails, the cache stays as it was. -/
def sync (t : DepositTracker) (e : Endpoint) (gate : Gate Nat) :
    Attempt RequestError (Nat × DepositTracker × Gate Nat) := do
  let (fetched, gate) ← t.request e gate
  return (fetched.length, fetched.foldl insert t, gate)

/-! ## Voting -/

/-- The record named most often, of equals the one named first. -/
def mostVoted (votes : List ExternalData) : Option ExternalData :=
  votes.eraseDups.foldl (fun best r =>
    match best with
    | some b => if votes.count r ≤ votes.count b then some b else some r
    | none => some r) none

/-- Whether a record may be voted for on a state, as far as its count goes. -/
def isForward (s : ChainState) (r : ExternalData) : Bool :=
  s.externalData.depositCount ≤ r.depositCount

/-- Whether a record is that of a followed block. -/
def knows (t : DepositTracker) (r : ExternalData) : Bool := t.blocks.any (·.record == r)

/-- The record that a proposer on a state votes for. -/
def voteFor (t : DepositTracker) (s : ChainState) : ExternalData :=
  match mostVoted (s.externalDataVotes.filter fun r => isForward s r && t.knows r) with
  | some r => r
  | none => ((t.blocks.reverse.map (·.record)).find? (isForward s)).getD s.externalData

end DepositTracker

end Beacon
