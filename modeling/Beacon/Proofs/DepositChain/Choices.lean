import Mathlib
import Beacon.Proofs.Production.Counts

set_option autoImplicit false

/-! # Which record is voted for

A proposer repeats one of the pending votes if it can, else votes for the newest record that it
follows, else for the one in force. `Chooses` says which, without the tally: among the votes that
may be repeated the choice leads every other one, by their numbers or, of equally many, by the
earliest one. The tally goes through the records in the order in which they first appear
(`pairwise_idxOf_eraseDups`), and the one that stays has more votes than all before it and as many
as any after it (`mostVoted_cases`). -/

namespace Beacon

variable {t : DepositTracker} {s : ChainState} {r r' : ExternalData} {votes : List ExternalData}

/-! ## Tallies -/

/-- Among votes `r` leads `r'`: more of them name it, or as many and one of them comes no later than
    any for the other. -/
def Leads (votes : List ExternalData) (r r' : ExternalData) : Prop :=
  votes.count r' < votes.count r ∨
    votes.count r' = votes.count r ∧ votes.idxOf r ≤ votes.idxOf r'

/-- Of two records that are voted for, only one leads. -/
theorem Leads.antisymm (hr : r ∈ votes) (h : Leads votes r r') (h' : Leads votes r' r) :
    r = r' := by
  unfold Leads at h h'
  exact List.idxOf_inj hr |>.1 (by omega)

/-- Without repetitions, elements stand in the order in which they first appear. -/
theorem pairwise_idxOf_eraseDups {α : Type} [BEq α] [LawfulBEq α] (p : α → Bool) (xs : List α) :
    (xs.filter p).eraseDups.Pairwise fun x y => xs.idxOf x < xs.idxOf y := by
  induction xs using List.reverseRecOn with
  | nil => exact .nil
  | append_singleton xs x ih =>
      have hfront : (xs.filter p).eraseDups.Pairwise
          fun y z => (xs ++ [x]).idxOf y < (xs ++ [x]).idxOf z := by
        refine ih.imp_of_mem fun hy hz hlt => ?_
        rw [List.mem_eraseDups] at hy hz
        rwa [List.idxOf_append_of_mem (List.mem_of_mem_filter hy),
          List.idxOf_append_of_mem (List.mem_of_mem_filter hz)]
      rw [List.filter_append, List.eraseDups_append]
      by_cases hp : p x = true
      · by_cases hmem : x ∈ xs
        · simpa [hp, hmem, List.cons_removeAll] using hfront
        · -- A new element comes last, and first appears at the end.
          have hnew : ([x].filter p).removeAll (xs.filter p) = [x] := by
            simp [hp, hmem, List.cons_removeAll]
          rw [hnew, List.pairwise_append]
          refine ⟨hfront, List.pairwise_singleton .., fun y hy z hz => ?_⟩
          rw [List.mem_eraseDups] at hy
          have hy := List.mem_of_mem_filter hy
          have hz : z = x := by simpa using hz
          rw [hz, List.idxOf_append_of_mem hy, List.idxOf_append_of_notMem hmem]
          exact Nat.lt_add_right _ (List.idxOf_lt_length_iff.2 hy)
      · simpa [hp, List.removeAll] using hfront

namespace DepositTracker

/-- The tally of no votes is empty; any other one ends with a record that more votes name than any
    before it, and at least as many as any after it. -/
theorem mostVoted_cases (votes : List ExternalData) :
    votes.eraseDups = [] ∧ mostVoted votes = none ∨
      ∃ before r after, votes.eraseDups = before ++ r :: after ∧ mostVoted votes = some r ∧
        (∀ r' ∈ before, votes.count r' < votes.count r) ∧
        ∀ r' ∈ after, votes.count r' ≤ votes.count r := by
  unfold mostVoted
  generalize votes.eraseDups = records
  induction records using List.reverseRecOn with
  | nil => exact .inl ⟨rfl, rfl⟩
  | append_singleton records x ih =>
      refine .inr ?_
      rw [List.foldl_append, List.foldl_cons, List.foldl_nil]
      rcases ih with ⟨rfl, -⟩ | ⟨before, best, after, rfl, hbest, hbefore, hafter⟩
      · exact ⟨[], x, [], rfl, rfl, by simp, by simp⟩
      · rw [hbest]
        by_cases hle : votes.count x ≤ votes.count best
        · -- The best so far stays.
          refine ⟨before, best, after ++ [x], by simp, if_pos hle, hbefore, fun r' hr' => ?_⟩
          rcases List.mem_append.1 hr' with hr' | hr'
          · exact hafter r' hr'
          · rw [List.mem_singleton.1 hr']
            exact hle
        · have hlt : votes.count best < votes.count x := not_le.1 hle
          refine ⟨before ++ best :: after, x, [], rfl, if_neg hle, fun r' hr' => ?_, by simp⟩
          rcases List.mem_append.1 hr' with hr' | hr'
          · exact (hbefore r' hr').trans hlt
          · rcases List.mem_cons.1 hr' with rfl | hr'
            · exact hlt
            · exact (hafter r' hr').trans_lt hlt

/-- Of the votes that pass a test on their records, the tally gives one that leads all others among
    all votes. -/
theorem mostVoted_filter_cases (p : ExternalData → Bool) (votes : List ExternalData) :
    (∀ r ∈ votes, p r = false) ∧ mostVoted (votes.filter p) = none ∨
      ∃ r, mostVoted (votes.filter p) = some r ∧ r ∈ votes ∧ p r = true ∧
        ∀ r' ∈ votes, p r' = true → Leads votes r r' := by
  rcases mostVoted_cases (votes.filter p) with
    ⟨hnil, hnone⟩ | ⟨before, r, after, hrecords, hsome, hbefore, hafter⟩
  · refine .inl ⟨fun r hr => ?_, hnone⟩
    by_contra hp
    have hmem : r ∈ (votes.filter p).eraseDups :=
      List.mem_eraseDups.2 (List.mem_filter.2 ⟨hr, Bool.eq_true_of_not_eq_false hp⟩)
    rw [hnil] at hmem
    cases hmem
  · have hlisted {x : ExternalData} : x ∈ before ++ r :: after ↔ x ∈ votes ∧ p x = true := by
      rw [← hrecords, List.mem_eraseDups, List.mem_filter]
    have hr := hlisted.1 (List.mem_append_right _ (List.mem_cons_self ..))
    refine .inr ⟨r, hsome, hr.1, hr.2, fun r' hr' hp => ?_⟩
    have horder := pairwise_idxOf_eraseDups p votes
    rw [hrecords, List.pairwise_append, List.pairwise_cons] at horder
    have hcount {x : ExternalData} (hx : p x = true) :
        (votes.filter p).count x = votes.count x := List.count_filter hx
    rcases List.mem_append.1 (hlisted.2 ⟨hr', hp⟩) with hmem | hmem
    · have hlt := hbefore r' hmem
      rw [hcount hp, hcount hr.2] at hlt
      exact .inl hlt
    · rcases List.mem_cons.1 hmem with rfl | hmem
      · exact .inr ⟨rfl, le_rfl⟩
      · have hle := hafter r' hmem
        rw [hcount hp, hcount hr.2] at hle
        exact hle.lt_or_eq.imp_right fun heq => ⟨heq, (horder.2.1.1 r' hmem).le⟩

/-! ## The cache -/

/-- The followed blocks stand in increasing order of their numbers, no number twice. An empty cache
    does, and both ways to fill it keep it so. -/
def Ordered (t : DepositTracker) : Prop := t.blocks.Pairwise (·.block.number < ·.block.number)

theorem pairwise_number_place {b : TrackedBlock} {blocks : List TrackedBlock}
    (h : blocks.Pairwise (·.block.number < ·.block.number)) :
    (place b blocks).Pairwise (·.block.number < ·.block.number) := by
  induction blocks with
  | nil => exact List.pairwise_singleton ..
  | cons x xs ih =>
      obtain ⟨hfirst, hrest⟩ := List.pairwise_cons.1 h
      rw [place]
      split
      · next hlt =>
          refine List.pairwise_cons.2 ⟨fun y hy => ?_, h⟩
          rcases List.mem_cons.1 hy with rfl | hy
          · exact hlt
          · exact hlt.trans (hfirst y hy)
      · split
        · next heq => exact List.pairwise_cons.2 ⟨fun y hy => heq ▸ hfirst y hy, hrest⟩
        · refine List.pairwise_cons.2 ⟨fun y hy => ?_, ih hrest⟩
          rcases mem_place hy with rfl | hy
          · omega
          · exact hfirst y hy

theorem ordered_empty (config : DepositConfig) : ({ config } : DepositTracker).Ordered := .nil

theorem Ordered.insert (h : t.Ordered) (b : TrackedBlock) : (t.insert b).Ordered :=
  (pairwise_number_place h).sublist (List.drop_sublist ..)

/-- Whatever a cache fetches, it keeps in order. -/
theorem Ordered.sync {e : Endpoint} {gate gate' : Gate Nat} {count : Nat} {t' : DepositTracker}
    (h : t.Ordered) (hsync : t.sync e gate = .ok (count, t', gate')) : t'.Ordered := by
  simp only [DepositTracker.sync, Attempt.bind_eq_ok, Attempt.pure_eq_ok, Prod.mk.injEq] at hsync
  obtain ⟨⟨fetched, -⟩, -, -, rfl, -⟩ := hsync
  exact List.foldlRecOn fetched DepositTracker.insert h fun _ hu b _ => hu.insert b

/-- The newest record that passes a test. -/
theorem Ordered.newest_cases (h : t.Ordered) (p : ExternalData → Bool) :
    (∀ b ∈ t.blocks, p b.record = false) ∧ (t.blocks.reverse.map (·.record)).find? p = none ∨
      ∃ b ∈ t.blocks, p b.record = true ∧
        (t.blocks.reverse.map (·.record)).find? p = some b.record ∧
        ∀ b' ∈ t.blocks, p b'.record = true → b'.block.number ≤ b.block.number := by
  rw [List.find?_map]
  cases hfind : t.blocks.reverse.find? (p ∘ (·.record)) with
  | none =>
      refine .inl ⟨fun b hb => ?_, rfl⟩
      exact Bool.eq_false_of_not_eq_true
        (List.find?_eq_none.1 hfind b (List.mem_reverse.2 hb))
  | some b =>
      obtain ⟨hp, newer, older, hblocks, hnewer⟩ := List.find?_eq_some_iff_append.1 hfind
      have hmem {x : TrackedBlock} : x ∈ t.blocks ↔ x ∈ newer ++ b :: older := by
        rw [← hblocks, List.mem_reverse]
      refine .inr ⟨b, hmem.2 (List.mem_append_right _ (List.mem_cons_self ..)), hp, rfl,
        fun b' hb' hp' => ?_⟩
      have hdescending := List.pairwise_reverse.2 h
      rw [hblocks, List.pairwise_append, List.pairwise_cons] at hdescending
      rcases List.mem_append.1 (hmem.1 hb') with hb' | hb'
      · -- Nothing newer passes.
        have hfails := hnewer b' hb'
        simp [hp'] at hfails
      · rcases List.mem_cons.1 hb' with rfl | hb'
        · exact le_rfl
        · exact (hdescending.2.1.1 b' hb').le

/-! ## Choices -/

/-- A pending vote that may be repeated: it is for the record of a followed block, which counts no
    fewer deposits than the record in force. -/
structure MayRepeat (t : DepositTracker) (s : ChainState) (r : ExternalData) : Prop where
  pending : r ∈ s.externalDataVotes
  followed : ∃ b ∈ t.blocks, b.record = r
  forward : s.externalData.depositCount ≤ r.depositCount

/-- What a proposer with a cache votes for on a state: of the votes that may be repeated the one
    that leads all others; if there are none, the record of the newest block that counts no fewer
    deposits than the record in force; if there is no such block either, the record in force. -/
inductive Chooses (t : DepositTracker) (s : ChainState) : ExternalData → Prop
  | leader (r : ExternalData) (may : t.MayRepeat s r)
      (leads : ∀ r', t.MayRepeat s r' → Leads s.externalDataVotes r r') : Chooses t s r
  | newest (b : TrackedBlock) (alone : ∀ r, ¬ t.MayRepeat s r) (followed : b ∈ t.blocks)
      (forward : s.externalData.depositCount ≤ b.record.depositCount)
      (highest : ∀ b' ∈ t.blocks, s.externalData.depositCount ≤ b'.record.depositCount →
        b'.block.number ≤ b.block.number) : Chooses t s b.record
  | current (alone : ∀ r, ¬ t.MayRepeat s r)
      (behind : ∀ b ∈ t.blocks, b.record.depositCount < s.externalData.depositCount) :
      Chooses t s s.externalData

theorem isForward_iff : isForward s r = true ↔ s.externalData.depositCount ≤ r.depositCount :=
  decide_eq_true_iff

theorem knows_iff : t.knows r = true ↔ ∃ b ∈ t.blocks, b.record = r := by
  simp [knows]

theorem mayRepeat_iff :
    t.MayRepeat s r ↔ r ∈ s.externalDataVotes ∧ (isForward s r && t.knows r) = true := by
  rw [Bool.and_eq_true, isForward_iff, knows_iff]
  exact ⟨fun h => ⟨h.pending, h.forward, h.followed⟩, fun ⟨hpending, hforward, hfollowed⟩ =>
    ⟨hpending, hfollowed, hforward⟩⟩

/-- The vote is a choice. -/
theorem Ordered.chooses_voteFor (h : t.Ordered) (s : ChainState) : t.Chooses s (t.voteFor s) := by
  unfold voteFor
  rcases mostVoted_filter_cases (fun r => isForward s r && t.knows r) s.externalDataVotes with
    ⟨hnever, hnone⟩ | ⟨r, hsome, hr, hmay, hleads⟩
  · have halone (r : ExternalData) : ¬ t.MayRepeat s r := by
      rw [mayRepeat_iff, not_and, Bool.not_eq_true]
      exact hnever r
    rw [hnone]
    rcases h.newest_cases (isForward s) with ⟨hbehind, hfind⟩ | ⟨b, hb, hp, hfind, hhighest⟩
    · rw [hfind]
      refine .current halone fun b hb => ?_
      rw [← not_le, ← isForward_iff, hbehind b hb]
      exact Bool.false_ne_true
    · rw [hfind]
      exact .newest b halone hb (isForward_iff.1 hp) fun b' hb' hforward =>
        hhighest b' hb' (isForward_iff.2 hforward)
  · rw [hsome]
    refine .leader r (mayRepeat_iff.2 ⟨hr, hmay⟩) fun r' hr' => ?_
    obtain ⟨hpending, hmay'⟩ := mayRepeat_iff.1 hr'
    exact hleads r' hpending hmay'

/-- There is only one choice. -/
theorem Ordered.chooses_unique (h : t.Ordered) (hr : t.Chooses s r) (hr' : t.Chooses s r') :
    r = r' := by
  cases hr with
  | leader _ hmay hleads =>
      cases hr' with
      | leader _ hmay' hleads' => exact (hleads r' hmay').antisymm hmay.pending (hleads' r hmay)
      | newest _ halone => exact absurd hmay (halone r)
      | current halone => exact absurd hmay (halone r)
  | newest b halone hb hforward hhighest =>
      cases hr' with
      | leader _ hmay' => exact absurd hmay' (halone r')
      | newest b' _ hb' hforward' hhighest' =>
          have hnumber : b.block.number = b'.block.number :=
            le_antisymm (hhighest' b hb hforward) (hhighest b' hb' hforward')
          have hdistinct : (t.blocks.map (·.block.number)).Nodup :=
            (List.pairwise_map.2 h).imp fun hlt => hlt.ne
          rw [List.inj_on_of_nodup_map hdistinct hb hb' hnumber]
      | current _ hbehind => exact absurd hforward (hbehind b hb).not_ge
  | current halone hbehind =>
      cases hr' with
      | leader _ hmay' => exact absurd hmay' (halone r')
      | newest b' _ hb' hforward' => exact absurd hforward' (hbehind b' hb').not_ge
      | current => rfl

/-! ## The theorem -/

/-- **Vote selection is exact.** A proposer votes for the record that is to be chosen and for no
    other one, whatever is in its cache and whatever votes are pending. -/
theorem vote_selection_exact (h : t.Ordered) (s : ChainState) (r : ExternalData) :
    t.Chooses s r ↔ t.voteFor s = r :=
  ⟨fun hr => h.chooses_unique (h.chooses_voteFor s) hr, fun heq => heq ▸ h.chooses_voteFor s⟩

end DepositTracker

/-- A record that counts some deposits. -/
def ExternalData.counting (count : Nat) : ExternalData where
  depositCount := count

/-- A cache of four blocks, whose records count one deposit more each. -/
def DepositTracker.four : DepositTracker where
  config := {}
  blocks := [⟨{ number := 1 }, .counting 1⟩, ⟨{ number := 2 }, .counting 2⟩,
    ⟨{ number := 3 }, .counting 3⟩, ⟨{ number := 4 }, .counting 4⟩]

/-- Two deposits are in force. Most votes are for a record that counts fewer or for one that no
    followed block has; two records have two votes each. -/
def ChainState.contested : ChainState where
  externalData := .counting 2
  externalDataVotes := [.counting 1, .counting 9, .counting 3, .counting 4, .counting 1,
    .counting 9, .counting 4, .counting 3, .counting 1, .counting 9]

/-- Of the two records with two votes each, the choice is the one that was voted for first. -/
theorem vote_selection_exact_contested :
    DepositTracker.four.Ordered ∧
      DepositTracker.four.voteFor ChainState.contested = .counting 3 ∧
      DepositTracker.four.Chooses ChainState.contested (.counting 3) ∧
      ¬ DepositTracker.four.Chooses ChainState.contested (.counting 4) := by
  have hordered : DepositTracker.four.Ordered := by
    unfold DepositTracker.Ordered
    decide
  have hvote : DepositTracker.four.voteFor ChainState.contested = .counting 3 := by decide +kernel
  refine ⟨hordered, hvote, (DepositTracker.vote_selection_exact hordered _ _).2 hvote,
    fun hother => ?_⟩
  rw [(DepositTracker.vote_selection_exact hordered _ _).1 hother] at hvote
  exact absurd hvote (by decide)

end Beacon
