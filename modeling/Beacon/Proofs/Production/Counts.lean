import Mathlib
import Beacon.DepositChain.Tracker
import Beacon.Proofs.Digests
import Beacon.Proofs.Production.Assembling

set_option autoImplicit false

/-! # No count runs ahead of the log

A record of the deposit chain starts as the length of the log when a block is mined. It is encoded,
asked for, decoded, followed, voted for and at last adopted by a state; all the way it counts no more
deposits than the log has (`DevDepositChain.CountsUpTo`, `DepositTracker.CountsUpTo`,
`ChainState.CountsUpTo`). So the log can hand out every deposit that a block has to carry
(`DepositLog.depositsFollow`). -/

namespace Beacon

variable {c : Constants} {e : Engine} {s s' : ChainState} {l : DepositLog} {chain : DevDepositChain}
  {t t' : DepositTracker} {k k' : Nat}

/-! ## The log -/

/-- Fewer of some consecutive numbers are a prefix of them. -/
theorem range'_prefix {start m n : Nat} (hle : m ≤ n) :
    List.range' start m <+: List.range' start n := by
  obtain ⟨rest, rfl⟩ := Nat.exists_eq_add_of_le hle
  exact ⟨List.range' (start + m) rest, List.range'_append_1⟩

namespace DepositLog

theorem map_index_toList (l : DepositLog) : l.toList.map (·.index) = List.range' 0 l.size := by
  rw [toList, List.map_map]
  exact List.zipIdx_map_snd 0 _

/-- The deposits for a state have the indices from the next one on. -/
theorem map_index_depositsFor (l : DepositLog) (s : ChainState) (limit : Nat) :
    (l.depositsFor s limit).map (·.index)
      = List.range' s.depositIndex (min limit (l.size - s.depositIndex)) := by
  rw [depositsFor, List.map_take, List.map_drop, map_index_toList, List.drop_range', Nat.zero_add,
    Nat.mul_one]
  rcases Nat.le_total limit (l.size - s.depositIndex) with hle | hle
  · rw [List.take_range'_of_length_ge hle, Nat.min_eq_left hle]
  · rw [List.take_range'_of_length_le hle, Nat.min_eq_right hle]

/-- None of them has been processed. -/
theorem unprocessed_depositsFor (l : DepositLog) (s : ChainState) (limit : Nat) :
    unprocessed s (l.depositsFor s limit) = l.depositsFor s limit := by
  have hindices := l.map_index_depositsFor s limit
  cases hdeposits : l.depositsFor s limit with
  | nil => rfl
  | cons d ds =>
      have hmem : d.index ∈ (l.depositsFor s limit).map (·.index) := by
        rw [hdeposits]
        exact List.mem_cons_self ..
      rw [hindices, List.mem_range'_1] at hmem
      rw [unprocessed, List.dropWhile_cons_of_neg]
      simpa using hmem.1

/-- A block whose record counts no more deposits than the log has can be given all that are due. -/
theorem depositsFollow {contents : BlockContents}
    (hdeposits : contents.deposits = l.depositsFor s c.maxDeposits)
    (hrecord : (recordAfterVote c s contents.externalData).depositCount ≤ l.size) :
    DepositsFollow c s contents := by
  rw [DepositsFollow, hdeposits, unprocessed_depositsFor, map_index_depositsFor]
  refine range'_prefix ?_
  rw [dueAfterVote, depositsDue, Nat.min_comm]
  exact min_le_min le_rfl (Nat.sub_le_sub_right hrecord _)

end DepositLog

/-! ## Answers of the deposit contract -/

theorem readWord_eq_ok {response : List UInt8} {word : Root} (h : readWord response = .ok word) :
    word.toList = response := by
  unfold readWord Bytes.ofArray? at h
  split at h
  · next w hw =>
      split at hw
      · obtain rfl := Option.some.inj hw
        obtain rfl := Except.ok.inj h
        rfl
      · cases hw
  · cases h

theorem ofBigEndian_bigEndian64 (n : Nat) : ofBigEndian (bigEndian64 n) = n % Nat.pow 256 8 := by
  rw [ofBigEndian, bigEndian64, List.reverse_reverse, ofLittleEndian_littleEndian]

/-- What is read back of a count is the count up to words. -/
theorem decodeDepositCount_encode_le {count answer : Nat}
    (h : decodeDepositCount (encodeDepositCount count) = .ok answer) : answer ≤ count := by
  simp only [decodeDepositCount, Attempt.bind_eq_ok, Attempt.pure_eq_ok] at h
  obtain ⟨word, hword, -, -, rfl⟩ := h
  rw [readWord_eq_ok hword, encodeDepositCount, List.drop_left' List.length_replicate,
    ofBigEndian_bigEndian64]
  exact Nat.mod_le ..

/-- The two questions are told apart. -/
theorem encode_depositCount_ne :
    ContractCall.depositCount.encode ≠ ContractCall.depositRoot.encode := by
  simp only [ContractCall.encode, ContractCall.signature, selector, keccak256_eq]
  decide +kernel

theorem decode?_depositCount :
    ContractCall.decode? ContractCall.depositCount.encode = some .depositCount := by
  rw [ContractCall.decode?, List.find?_cons_of_neg, List.find?_cons_of_pos]
  · exact beq_self_eq_true _
  · simpa using encode_depositCount_ne

/-! ## The chain over the log -/

namespace DevDepositChain

/-- No block of the deposit chain has logged more than `k` deposits. -/
def CountsUpTo (chain : DevDepositChain) (k : Nat) : Prop :=
  ∀ m ∈ chain.blocks, m.depositCount ≤ k

theorem CountsUpTo.mono (h : chain.CountsUpTo k) (hle : k ≤ k') : chain.CountsUpTo k' :=
  fun m hm => (h m hm).trans hle

theorem countsUpTo_create (contract : Address) (l : DepositLog) (timestamp seconds : Nat) :
    (create contract l timestamp seconds).CountsUpTo l.size := by
  intro m hm
  obtain rfl := List.mem_singleton.1 hm
  exact le_rfl

theorem CountsUpTo.mine {chain' : DevDepositChain} (h : chain.CountsUpTo k) (hle : l.size ≤ k)
    (hmine : chain.mine l = .ok chain') : chain'.CountsUpTo k := by
  simp only [DevDepositChain.mine, Attempt.bind_eq_ok, Attempt.pure_eq_ok] at hmine
  obtain ⟨number, -, timestamp, -, rfl⟩ := hmine
  intro m hm
  rw [blocks, Array.toList_push, ← List.cons_append] at hm
  rcases List.mem_append.1 hm with hm | hm
  · exact h m hm
  · rw [List.mem_singleton.1 hm]
    exact hle

theorem mem_blocks_of_block? {number : Nat} {m : MinedBlock} (h : chain.block? number = some m) :
    m ∈ chain.blocks := by
  cases number with
  | zero => exact Option.some.inj h ▸ List.mem_cons_self ..
  | succ n =>
      refine List.mem_cons_of_mem _ (Array.mem_toList_iff.2 ?_)
      exact Array.mem_of_getElem? h

theorem endpoint_call : (chain.endpoint l).call = chain.call l := rfl

/-- The contract answers with what some block has logged. -/
theorem call_depositCount {address : Address} {number : Nat} {answer : List UInt8}
    (h : chain.call l address ContractCall.depositCount.encode number = .ok answer) :
    ∃ m ∈ chain.blocks, answer = encodeDepositCount m.depositCount := by
  simp only [call, Attempt.bind_eq_ok, decode?_depositCount, Attempt.pure_eq_ok] at h
  obtain ⟨-, -, -, -, m, hm, rfl⟩ := h
  refine ⟨m, ?_, rfl⟩
  unfold found at hm
  split at hm
  · next hsome => exact mem_blocks_of_block? (Except.ok.inj hm ▸ hsome)
  · cases hm

end DevDepositChain

/-! ## The follower -/

namespace DepositTracker

/-- No followed record counts more than `k` deposits. -/
def CountsUpTo (t : DepositTracker) (k : Nat) : Prop := ∀ b ∈ t.blocks, b.record.depositCount ≤ k

theorem CountsUpTo.mono (h : t.CountsUpTo k) (hle : k ≤ k') : t.CountsUpTo k' :=
  fun b hb => (h b hb).trans hle

theorem fetch_depositCount_le {number : Nat} {b : TrackedBlock} (h : chain.CountsUpTo k)
    (hfetch : t.fetch (chain.endpoint l) number = .ok b) : b.record.depositCount ≤ k := by
  simp only [fetch, DevDepositChain.endpoint_call, Attempt.bind_eq_ok, Attempt.pure_eq_ok] at hfetch
  obtain ⟨block, -, root, -, answer, hanswer, _, -, count, hcount, rfl⟩ := hfetch
  obtain ⟨m, hm, heq⟩ := DevDepositChain.call_depositCount hanswer
  rw [heq] at hcount
  exact (decodeDepositCount_encode_le hcount).trans (h m hm)

theorem mem_place {b x : TrackedBlock} {xs : List TrackedBlock} (h : x ∈ place b xs) :
    x = b ∨ x ∈ xs := by
  induction xs with
  | nil => exact Or.inl (List.mem_singleton.1 h)
  | cons y ys ih =>
      rw [place] at h
      split at h
      · exact List.mem_cons.1 h
      · split at h
        · exact (List.mem_cons.1 h).imp_right (List.mem_cons_of_mem _)
        · rcases List.mem_cons.1 h with rfl | h
          · exact Or.inr (List.mem_cons_self ..)
          · exact (ih h).imp_right (List.mem_cons_of_mem _)

theorem CountsUpTo.insert {b : TrackedBlock} (h : t.CountsUpTo k) (hb : b.record.depositCount ≤ k) :
    (t.insert b).CountsUpTo k := by
  intro x hx
  rcases mem_place (List.mem_of_mem_drop hx) with rfl | hx
  · exact hb
  · exact h x hx

theorem CountsUpTo.sync {gate gate' : Gate Nat} {count : Nat} (h : t.CountsUpTo k)
    (hchain : chain.CountsUpTo k)
    (hsync : t.sync (chain.endpoint l) gate = .ok (count, t', gate')) : t'.CountsUpTo k := by
  simp only [DepositTracker.sync, request, Attempt.bind_eq_ok, Attempt.pure_eq_ok, Prod.mk.injEq]
    at hsync
  obtain ⟨⟨fetched, _⟩, ⟨head, -, numbers, -, _, hfetched, rfl, rfl⟩, -, rfl, -⟩ := hsync
  -- Each block that has been fetched counts what some block of the chain has logged.
  have hall : ∀ b ∈ fetched, b.record.depositCount ≤ k := by
    intro b hb
    obtain ⟨number, -, hb⟩ := Attempt.exists_of_mem_mapM hfetched hb
    exact fetch_depositCount_le hchain hb
  exact List.foldlRecOn (motive := fun t : DepositTracker => t.CountsUpTo k) fetched _ h
    fun _ ht b hb => ht.insert (hall b hb)

end DepositTracker

/-! ## The chain -/

theorem recordAfterVote_le {vote : ExternalData} (hrecord : s.externalData.depositCount ≤ k)
    (hvote : vote.depositCount ≤ k) : (recordAfterVote c s vote).depositCount ≤ k := by
  unfold recordAfterVote
  split
  · exact hvote
  · exact hrecord

/-- Neither the record in force nor one that is voted for counts more than `k` deposits. -/
structure ChainState.CountsUpTo (s : ChainState) (k : Nat) : Prop where
  record : s.externalData.depositCount ≤ k
  votes : ∀ vote ∈ s.externalDataVotes, vote.depositCount ≤ k

namespace ChainState.CountsUpTo

theorem mono (h : s.CountsUpTo k) (hle : k ≤ k') : s.CountsUpTo k' :=
  ⟨h.record.trans hle, fun vote hvote => (h.votes vote hvote).trans hle⟩

theorem step (h : s.CountsUpTo k) (hstep : Engine.step c s = .ok s') : s'.CountsUpTo k := by
  have hframe := step_frame hstep
  refine ⟨?_, fun vote hvote => h.votes vote (hframe.externalDataVotes hvote)⟩
  rw [hframe.externalData]
  exact h.record

theorem advance {target : Slot} (h : s.CountsUpTo k) (hadvance : e.advance s target = .ok s') :
    s'.CountsUpTo k :=
  stepBy_invariant (P := (·.CountsUpTo k)) (fun _ _ ht hstep => ht.step hstep) h
    (advance_eq_ok.1 hadvance).2

/-- A block adds its vote to the others; the record in force is the old one or that vote. -/
theorem importBlock {b : CandidateBlock} (h : s.CountsUpTo k)
    (hvote : b.body.externalData.depositCount ≤ k) (himport : e.importBlock s b = .ok s') :
    s'.CountsUpTo k := by
  obtain ⟨t, hadvance, hblock⟩ := importBlock_eq_ok.1 himport
  have ht := h.advance hadvance
  have hframe := (applyBlock_frame hblock).frame
  refine ⟨?_, fun vote hmem => ?_⟩
  · rw [hframe.externalData]
    exact recordAfterVote_le ht.record hvote
  · rw [hframe.externalDataVotes] at hmem
    rcases List.mem_append.1 hmem with hmem | hmem
    · exact ht.votes vote hmem
    · rw [List.mem_singleton.1 hmem]
      exact hvote

end ChainState.CountsUpTo

/-! ## Voting -/

namespace DepositTracker

/-- The record that most votes name is one that is voted for. -/
theorem mem_of_mostVoted {votes : List ExternalData} {r : ExternalData}
    (h : mostVoted votes = some r) : r ∈ votes := by
  refine List.mem_eraseDups.1 ?_
  revert h
  refine List.foldlRecOn (motive := fun best : Option ExternalData =>
    best = some r → r ∈ votes.eraseDups) votes.eraseDups _ (fun h => nomatch h) ?_
  intro best hbest vote hvote hnext
  cases best with
  | none =>
      obtain rfl := Option.some.inj hnext
      exact hvote
  | some b =>
      dsimp only at hnext
      split at hnext
      · exact hbest hnext
      · obtain rfl := Option.some.inj hnext
        exact hvote

theorem voteFor_le (ht : t.CountsUpTo k) (hs : s.CountsUpTo k) :
    (t.voteFor s).depositCount ≤ k := by
  unfold voteFor
  split
  · next r hr => exact hs.votes r (List.mem_of_mem_filter (mem_of_mostVoted hr))
  · cases hfind : (t.blocks.reverse.map (·.record)).find? (isForward s) with
    | none => exact hs.record
    | some r =>
        obtain ⟨b, hb, rfl⟩ := List.mem_map.1 (List.mem_of_find?_eq_some hfind)
        exact ht b (List.mem_reverse.1 hb)

end DepositTracker

end Beacon
