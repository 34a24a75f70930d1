import Mathlib
import Beacon.Proofs.Production.Counts

set_option autoImplicit false

/-! # What the deposit chain answers

Each block of the deposit chain is sealed with the log as it was when the block was mined.
`DevDepositChain.Seals` ties a chain to the list of its sealed blocks: the blocks are numbered from
zero on, and the log only ever grows over the logs that have been sealed, so that a root over a
number of deposits never changes. `Endpoint.TrueTo` says that whatever is answered, at whatever time,
is about these blocks; it is the same for an answer that is given at once (`Seals.trueTo`) and for
answers that have been given one after the other while the chain went on (`TrueTo.mono`,
`TrueTo.take`). An answer of the contract decodes to what has been encoded
(`decodeDepositRoot_toList`, `decodeDepositCount_encode`). -/

namespace Beacon

variable {chain chain' : DevDepositChain} {log : DepositLog} {d : DepositData} {number : Nat}

/-! ## Words -/

theorem readWord_toList (root : Root) : readWord root.toList = .ok root := by
  have hlist : root.toList.toArray = root.toArray := Array.toArray_toList
  unfold readWord Bytes.ofArray?
  rw [hlist, dif_pos root.size_toArray]

theorem decodeDepositRoot_toList (root : Root) : decodeDepositRoot root.toList = .ok root :=
  readWord_toList root

/-- A count that is a word is read back as it was written. -/
theorem decodeDepositCount_encode {count : Nat} (h : count < Word.limit) :
    decodeDepositCount (encodeDepositCount count) = .ok count := by
  have hlength : (encodeDepositCount count).toArray.size = 32 := by
    simp [encodeDepositCount, bigEndian64]
  obtain ⟨word, hword⟩ : ∃ word, readWord (encodeDepositCount count) = .ok word := by
    unfold readWord Bytes.ofArray?
    rw [dif_pos hlength]
    exact ⟨_, rfl⟩
  have hlist := readWord_eq_ok hword
  have hlow : ofBigEndian (word.toList.drop 24) = count := by
    rw [hlist, encodeDepositCount, List.drop_left' List.length_replicate, ofBigEndian_bigEndian64]
    exact Nat.mod_eq_of_lt h
  have hhigh : (word.toList.take 24).all (· == 0) = true := by
    rw [hlist, encodeDepositCount, List.take_left' List.length_replicate]
    decide
  simp only [decodeDepositCount, hword, Attempt.ok_bind, Attempt.bind_eq_ok, Attempt.require_eq_ok,
    Attempt.pure_eq_ok]
  exact ⟨(), hhigh, hlow⟩

theorem decode?_depositRoot :
    ContractCall.decode? ContractCall.depositRoot.encode = some .depositRoot := by
  rw [ContractCall.decode?, List.find?_cons_of_pos]
  exact beq_self_eq_true _

/-! ## Sealed blocks -/

/-- A block of the deposit chain with the log as it was when the block was mined. -/
structure SealedBlock where
  block : DepositBlock
  log : DepositLog

namespace SealedBlock

/-- What the chain keeps of it. -/
def mined (x : SealedBlock) : MinedBlock where
  block := x.block
  depositCount := x.log.size

/-- What is to be followed of it: the record of a block counts the deposits that had been logged by
    then, and has the root over these. -/
def tracked (x : SealedBlock) : TrackedBlock where
  block := x.block
  record :=
    { depositRoot := hashRoot x.log.toList
      depositCount := x.log.size
      blockHash := x.block.hash }

end SealedBlock

variable {xs : List SealedBlock} {x : SealedBlock}

/-- Blocks are numbered from zero on. -/
def Numbered (xs : List SealedBlock) : Prop :=
  ∀ (number : Nat) (x : SealedBlock), xs[number]? = some x → x.block.number = number

/-- The blocks of a chain over a log, each with the log it was sealed with. -/
structure DevDepositChain.Seals (chain : DevDepositChain) (log : DepositLog)
    (xs : List SealedBlock) : Prop where
  blocks_eq : chain.blocks = xs.map SealedBlock.mined
  numbered : Numbered xs
  grown : ∀ x ∈ xs, x.log.toList <+: log.toList

namespace DevDepositChain

theorem seals_create (contract : Address) (log : DepositLog) (timestamp seconds : Nat) :
    (create contract log timestamp seconds).Seals log
      [⟨(create contract log timestamp seconds).genesis.block, log⟩] := by
  refine ⟨rfl, fun number x hx => ?_, fun x hx => ?_⟩
  · obtain ⟨rfl, rfl⟩ : number = 0 ∧ _ = x := by simpa [List.getElem?_singleton] using hx
    rfl
  · rw [List.mem_singleton.1 hx]

namespace Seals

/-- Deposits that are logged later change nothing about the blocks. -/
theorem record (h : chain.Seals log xs) (d : DepositData) :
    chain.Seals (log.record d) xs := by
  refine ⟨h.blocks_eq, h.numbered, fun x hx => (h.grown x hx).trans ?_⟩
  rw [log.toList_record]
  exact List.prefix_append ..

theorem setOffline (h : chain.Seals log xs) (offline : Bool) :
    { chain with offline }.Seals log xs :=
  ⟨h.blocks_eq, h.numbered, h.grown⟩

theorem block?_eq (h : chain.Seals log xs) (number : Nat) :
    chain.block? number = (xs[number]?).map SealedBlock.mined := by
  have hblock : chain.block? number = chain.blocks[number]? := by
    cases number with
    | zero => rfl
    | succ number => simp [block?, DevDepositChain.blocks]
  rw [hblock, h.blocks_eq, List.getElem?_map]

theorem latest_eq (h : chain.Seals log xs) :
    ∃ x, xs.getLast? = some x ∧ chain.latest = x.mined := by
  have hlatest : chain.blocks.getLast? = some chain.latest := by
    rw [DevDepositChain.blocks, latest, List.getLast?_cons]
    simp [Array.back?_eq_getElem?, List.getLast?_eq_getElem?]
  rw [h.blocks_eq, List.getLast?_map, Option.map_eq_some_iff] at hlatest
  obtain ⟨x, hx, heq⟩ := hlatest
  exact ⟨x, hx, heq.symm⟩

/-- The newest block has the highest number. -/
theorem latest_number (h : chain.Seals log xs) :
    chain.latest.block.number + 1 = xs.length := by
  obtain ⟨x, hx, heq⟩ := h.latest_eq
  have hpos : xs ≠ [] := by
    rintro rfl
    cases hx
  rw [List.getLast?_eq_getElem?] at hx
  have hnumber := h.numbered _ _ hx
  have := List.length_pos_iff.2 hpos
  rw [heq, SealedBlock.mined, hnumber]
  omega

/-- A block that is mined is sealed with the present log, after the others. -/
theorem mine (h : chain.Seals log xs) (hmine : chain.mine log = .ok chain') :
    chain'.Seals log (xs ++ [⟨chain'.latest.block, log⟩]) := by
  have hlatest := h.latest_number
  simp only [DevDepositChain.mine, Attempt.bind_eq_ok, Word.add_eq_ok, Attempt.pure_eq_ok] at hmine
  obtain ⟨_, ⟨rfl, -⟩, timestamp, -, rfl⟩ := hmine
  refine ⟨?_, fun number x hx => ?_, fun x hx => ?_⟩
  · rw [DevDepositChain.blocks, Array.toList_push, ← List.cons_append, List.map_append,
      ← h.blocks_eq]
    simp [DevDepositChain.blocks, latest, SealedBlock.mined]
  · rw [List.getElem?_append] at hx
    split at hx
    · exact h.numbered number x hx
    · next hlen =>
        obtain ⟨hzero, rfl⟩ : number - xs.length = 0 ∧ _ = x := by
          simpa [List.getElem?_singleton] using hx
        simp only [latest, Array.back?_push, Option.getD_some] at hlatest ⊢
        omega
  · rcases List.mem_append.1 hx with hx | hx
    · exact h.grown x hx
    · rw [List.mem_singleton.1 hx]

end Seals

/-- The root over the deposits that a block has sealed is still the one over that many deposits. -/
theorem Seals.root?_eq (h : chain.Seals log xs) (hx : x ∈ xs) :
    log.root? x.log.size = some (hashRoot x.log.toList) := by
  have hprefix := h.grown x hx
  have hle : x.log.size ≤ log.size := by
    simpa using hprefix.length_le
  have htake : log.toList.take x.log.size = x.log.toList := by
    rw [← x.log.length_toList]
    exact (List.prefix_iff_eq_take.1 hprefix).symm
  rw [DepositLog.root?, if_pos hle, htake]

end DevDepositChain

/-! ## Answers about sealed blocks -/

/-- Whatever an endpoint answers is about the given blocks, and what it takes for the newest block is
    not older than block number `since`. -/
structure Endpoint.TrueTo (e : Endpoint) (xs : List SealedBlock) (since : Nat) : Prop where
  latest : ∀ block, e.latestBlock = .ok block →
    since ≤ block.number ∧ ∃ x, xs[block.number]? = some x ∧ x.block = block
  block : ∀ number block, e.blockByNumber number = .ok block →
    ∃ x, xs[number]? = some x ∧ x.block = block
  root : ∀ address number response,
    e.call address ContractCall.depositRoot.encode number = .ok response →
    ∃ x, xs[number]? = some x ∧ response = (hashRoot x.log.toList).toList
  count : ∀ address number response,
    e.call address ContractCall.depositCount.encode number = .ok response →
    ∃ x, xs[number]? = some x ∧ response = encodeDepositCount x.log.size

namespace DevDepositChain

theorem found_eq_ok {α : Type} {name : String} {a : α} {option : Option α} :
    found name option = .ok a ↔ option = some a := by
  cases option <;> simp [found]

theorem requireOnline_eq (honline : chain.offline = false) : chain.requireOnline = .ok () :=
  Attempt.require_eq_ok.2 honline

theorem latestBlock_eq (honline : chain.offline = false) (log : DepositLog) :
    (chain.endpoint log).latestBlock = .ok chain.latest.block := by
  simp only [endpoint, requireOnline_eq honline, Attempt.ok_bind]
  rfl

namespace Seals

/-- Where the contract answers, it is asked as of a block of the chain. -/
theorem exists_of_call (h : chain.Seals log xs) {address : Address} {data response : List UInt8}
    (hcall : chain.call log address data number = .ok response) :
    ∃ x, xs[number]? = some x ∧
      (ContractCall.decode? data = some .depositRoot →
        response = (hashRoot x.log.toList).toList) ∧
      (ContractCall.decode? data = some .depositCount →
        response = encodeDepositCount x.log.size) := by
  simp only [call, Attempt.bind_eq_ok, found_eq_ok, h.block?_eq, Option.map_eq_some_iff] at hcall
  obtain ⟨-, -, -, -, _, ⟨x, hx, rfl⟩, hcall⟩ := hcall
  refine ⟨x, hx, fun hroot => ?_, fun hcount => ?_⟩
  · have hsome : log.root? x.mined.depositCount = some (hashRoot x.log.toList) :=
      h.root?_eq (List.mem_of_getElem? hx)
    simp only [hroot, hsome, Attempt.pure_eq_ok] at hcall
    exact hcall.symm
  · simp only [hcount, Attempt.pure_eq_ok] at hcall
    exact hcall.symm

/-- A chain answers about its blocks. -/
theorem trueTo (h : chain.Seals log xs) {since : Nat} (hsince : since < xs.length) :
    (chain.endpoint log).TrueTo xs since := by
  refine ⟨fun block hblock => ?_, fun number block hblock => ?_, fun address number response hcall =>
    ?_, fun address number response hcall => ?_⟩
  · simp only [endpoint, Attempt.bind_eq_ok, Attempt.pure_eq_ok] at hblock
    obtain ⟨-, -, rfl⟩ := hblock
    have hlatest := h.latest_number
    obtain ⟨x, hx, heq⟩ := h.latest_eq
    refine ⟨by omega, x, ?_, by rw [heq]; rfl⟩
    rw [List.getLast?_eq_getElem?] at hx
    rw [← hx]
    congr 1
    omega
  · simp only [endpoint, Attempt.bind_eq_ok, found_eq_ok, h.block?_eq, Option.map_eq_some_iff,
      Attempt.pure_eq_ok] at hblock
    obtain ⟨-, -, _, ⟨x, hx, rfl⟩, rfl⟩ := hblock
    exact ⟨x, hx, rfl⟩
  · rw [endpoint_call] at hcall
    obtain ⟨x, hx, hroot, -⟩ := h.exists_of_call hcall
    exact ⟨x, hx, hroot decode?_depositRoot⟩
  · rw [endpoint_call] at hcall
    obtain ⟨x, hx, -, hcount⟩ := h.exists_of_call hcall
    exact ⟨x, hx, hcount decode?_depositCount⟩

/-- A chain that is online answers all questions about its blocks, and what is fetched is what is to
    be followed of the block. -/
theorem fetch_eq (h : chain.Seals log xs) {t : DepositTracker} (honline : chain.offline = false)
    (hcontract : t.config.depositContract = chain.contract) (hx : xs[number]? = some x)
    (hsize : x.log.size < Word.limit) : t.fetch (chain.endpoint log) number = .ok x.tracked := by
  have hrequire := requireOnline_eq honline
  have haddress (cause : RequestError) :
      Attempt.require (t.config.depositContract = chain.contract) cause = .ok () :=
    Attempt.require_eq_ok.2 hcontract
  have hroot : log.root? x.mined.depositCount = some (hashRoot x.log.toList) :=
    h.root?_eq (List.mem_of_getElem? hx)
  have hfound (name : String) : found name (chain.block? number) = .ok x.mined := by
    rw [found_eq_ok, h.block?_eq, hx, Option.map_some]
  have hblock : (chain.endpoint log).blockByNumber number = .ok x.block := by
    simp only [endpoint, hrequire, hfound, Attempt.ok_bind]
    rfl
  have haskRoot : (chain.endpoint log).call t.config.depositContract ContractCall.depositRoot.encode
      number = .ok (hashRoot x.log.toList).toList := by
    simp only [endpoint, call, hrequire, hfound, haddress, Attempt.ok_bind,
      decode?_depositRoot, hroot]
    rfl
  have haskCount : (chain.endpoint log).call t.config.depositContract
      ContractCall.depositCount.encode number = .ok (encodeDepositCount x.log.size) := by
    simp only [endpoint, call, hrequire, hfound, haddress, Attempt.ok_bind,
      decode?_depositCount]
    rfl
  simp only [DepositTracker.fetch, hblock, haskRoot, haskCount, Attempt.ok_bind,
    decodeDepositRoot_toList, decodeDepositCount_encode hsize]
  rfl

end Seals

end DevDepositChain

/-! ## Answers given one after the other -/

/-- A question that a follower asks. -/
inductive DepositQuestion where
  | latest
  | block (number : Nat)
  /-- What the contract says as of a block. -/
  | contract (call : ContractCall) (number : Nat)
  deriving DecidableEq

/-- The questions that a follower asks for a block. -/
def DepositQuestion.about (number : Nat) : List DepositQuestion :=
  [.block number, .contract .depositRoot number, .contract .depositCount number]

namespace Endpoint

/-- Nobody has answered yet. -/
def silent : Endpoint where
  latestBlock := Attempt.reject (.unavailable "")
  blockByNumber _ := Attempt.reject (.unavailable "")
  blockByHash _ := Attempt.reject (.unavailable "")
  call _ _ _ := Attempt.reject (.unavailable "")

/-- Take over the answer to one question. -/
def take (a e : Endpoint) : DepositQuestion → Endpoint
  | .latest => { a with latestBlock := e.latestBlock }
  | .block number =>
    { a with blockByNumber := fun n => if n = number then e.blockByNumber n else a.blockByNumber n }
  | .contract c number =>
    { a with
      call := fun address data n =>
        if data = c.encode ∧ n = number then e.call address data n else a.call address data n }

theorem take_latestBlock {a e : Endpoint} {q : DepositQuestion} (hne : q ≠ .latest) :
    (a.take e q).latestBlock = a.latestBlock := by
  cases q with
  | latest => exact absurd rfl hne
  | block number => rfl
  | contract c number => rfl

namespace TrueTo

variable {a e : Endpoint} {ys : List SealedBlock} {since : Nat}

theorem silent (xs : List SealedBlock) (since : Nat) : Endpoint.silent.TrueTo xs since :=
  ⟨fun _ h => (Attempt.reject_ne_ok.1 h).elim, fun _ _ h => (Attempt.reject_ne_ok.1 h).elim,
    fun _ _ _ h => (Attempt.reject_ne_ok.1 h).elim, fun _ _ _ h => (Attempt.reject_ne_ok.1 h).elim⟩

/-- What has been answered stays true when the chain goes on. -/
theorem mono (h : a.TrueTo xs since) (hlonger : xs <+: ys) : a.TrueTo ys since := by
  have hkeep {number : Nat} {x : SealedBlock} (hx : xs[number]? = some x) :
      ys[number]? = some x := by
    obtain ⟨zs, rfl⟩ := hlonger
    exact List.getElem?_append_left (List.getElem?_eq_some_iff.1 hx).1 ▸ hx
  refine ⟨fun block hblock => ?_, fun number block hblock => ?_, fun address number response hcall =>
    ?_, fun address number response hcall => ?_⟩
  · obtain ⟨hsince, x, hx, heq⟩ := h.latest block hblock
    exact ⟨hsince, x, hkeep hx, heq⟩
  · exact (h.block number block hblock).imp fun x hx => ⟨hkeep hx.1, hx.2⟩
  · exact (h.root address number response hcall).imp fun x hx => ⟨hkeep hx.1, hx.2⟩
  · exact (h.count address number response hcall).imp fun x hx => ⟨hkeep hx.1, hx.2⟩

/-- One more true answer. -/
theorem take (ha : a.TrueTo xs since) (he : e.TrueTo xs since) (q : DepositQuestion) :
    (a.take e q).TrueTo xs since := by
  cases q with
  | latest => exact ⟨he.latest, ha.block, ha.root, ha.count⟩
  | block asked =>
      refine ⟨ha.latest, fun number block hblock => ?_, ha.root, ha.count⟩
      simp only [Endpoint.take] at hblock
      split at hblock
      · exact he.block number block hblock
      · exact ha.block number block hblock
  | contract c asked =>
      refine ⟨ha.latest, ha.block, fun address number response hcall => ?_,
        fun address number response hcall => ?_⟩
      · simp only [Endpoint.take] at hcall
        split at hcall
        · exact he.root address number response hcall
        · exact ha.root address number response hcall
      · simp only [Endpoint.take] at hcall
        split at hcall
        · exact he.count address number response hcall
        · exact ha.count address number response hcall

end TrueTo

end Endpoint

/-- What is fetched with true answers is what is to be followed of the block. -/
theorem DepositTracker.eq_tracked_of_fetch {t : DepositTracker} {e : Endpoint} {since : Nat}
    {b : TrackedBlock} (he : e.TrueTo xs since) (hsizes : ∀ x ∈ xs, x.log.size < Word.limit)
    (hfetch : t.fetch e number = .ok b) : ∃ x, xs[number]? = some x ∧ b = x.tracked := by
  simp only [fetch, Attempt.bind_eq_ok, Attempt.pure_eq_ok] at hfetch
  obtain ⟨block, hblock, root, hroot, count, hcount, root', hroot', count', hcount', rfl⟩ := hfetch
  obtain ⟨x, hx, rfl⟩ := he.block number block hblock
  obtain ⟨y, hy, hword⟩ := he.root _ number root hroot
  obtain ⟨z, hz, hnumber⟩ := he.count _ number count hcount
  obtain rfl : x = y := Option.some.inj (hx.symm.trans hy)
  obtain rfl : x = z := Option.some.inj (hx.symm.trans hz)
  rw [hword, decodeDepositRoot_toList] at hroot'
  rw [hnumber, decodeDepositCount_encode (hsizes x (List.mem_of_getElem? hx))] at hcount'
  rw [← Except.ok.inj hroot', ← Except.ok.inj hcount']
  exact ⟨x, hx, rfl⟩

end Beacon
