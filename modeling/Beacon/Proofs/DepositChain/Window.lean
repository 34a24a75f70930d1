import Mathlib
import Beacon.Proofs.DepositChain.Records

set_option autoImplicit false

/-! # The cache is a window on the chain

What a follower keeps is the end of a prefix of the chain (`DepositTracker.Keeps`): of the first `k`
blocks the latest ones, as many as it may keep. Insertion goes on with such a window
(`foldl_insert`), and what is missing behind a head that is not older than the last one starts where
the window ends or, when the follower has fallen further behind, where the new window starts
(`Keeps.missing_eq`). So keeping what has been fetched gives the window behind the new head
(`Keeps.foldl_fetched`). -/

namespace Beacon

namespace DepositTracker

variable {t : DepositTracker} {xs ys : List SealedBlock} {x : SealedBlock} {b : TrackedBlock}
  {blocks fetched : List TrackedBlock} {numbers : List Nat} {head k : Nat}

/-! ## Keeping blocks -/

/-- A block with a higher number than the others comes last. -/
theorem place_eq_append (h : ∀ y ∈ blocks, y.block.number < b.block.number) :
    place b blocks = blocks ++ [b] := by
  induction blocks with
  | nil => rfl
  | cons y ys ih =>
      obtain ⟨hy, hys⟩ := List.forall_mem_cons.1 h
      rw [place, if_neg (Nat.not_lt.2 hy.le), if_neg hy.ne', ih hys, List.cons_append]

/-- The latest elements, as many as there is room for. -/
def latest {α : Type} (room : Nat) (elements : List α) : List α :=
  elements.drop (elements.length - room)

/-- Dropping the excess before or after more elements come makes no difference. -/
theorem latest_append {α : Type} (room : Nat) (older newer : List α) :
    latest room (latest room older ++ newer) = latest room (older ++ newer) := by
  have hfront : latest room older ++ newer
      = (older ++ newer).drop (older.length - room) := by
    rw [latest, List.drop_append_of_le_length (Nat.sub_le ..)]
  rw [hfront, latest, latest, List.drop_drop, List.length_drop, List.length_append]
  congr 1
  omega

/-- Enough newer elements leave nothing of the older ones. -/
theorem latest_append_of_le {α : Type} {room : Nat} {newer : List α} (older : List α)
    (h : room ≤ newer.length) : latest room (older ++ newer) = latest room newer := by
  have hexcess : (older ++ newer).length - room = older.length + (newer.length - room) := by
    rw [List.length_append]
    omega
  rw [latest, hexcess, List.drop_append, latest]
  simp

theorem latest_map {α β : Type} (room : Nat) (f : α → β) (elements : List α) :
    latest room (elements.map f) = (latest room elements).map f := by
  simp [latest]

theorem config_foldl_insert (t : DepositTracker) (fetched : List TrackedBlock) :
    (fetched.foldl insert t).config = t.config := by
  induction fetched generalizing t with
  | nil => rfl
  | cons b fetched ih => exact ih (t.insert b)

/-- What is fetched goes on with what is kept, and of all that the latest blocks stay. -/
theorem foldl_insert (hroom : t.blocks.length ≤ t.config.maxTrackedBlocks)
    (hsorted : (t.blocks ++ fetched).Pairwise (·.block.number < ·.block.number)) :
    fetched.foldl insert t
      = { t with blocks := latest t.config.maxTrackedBlocks (t.blocks ++ fetched) } := by
  induction fetched generalizing t with
  | nil => simp [latest, Nat.sub_eq_zero_of_le hroom]
  | cons b fetched ih =>
      have hlast : ∀ y ∈ t.blocks, y.block.number < b.block.number := fun y hy =>
        (List.pairwise_append.1 hsorted).2.2 y hy b (List.mem_cons_self ..)
      have hinsert : t.insert b
          = { t with blocks := latest t.config.maxTrackedBlocks (t.blocks ++ [b]) } := by
        rw [insert, place_eq_append hlast, latest]
      rw [List.append_cons] at hsorted
      rw [List.foldl_cons, hinsert, ih]
      · simp only [latest_append, List.append_cons t.blocks b fetched]
      · simp only [latest, List.length_drop]
        omega
      · -- What has been dropped is in front.
        refine hsorted.sublist (List.Sublist.append ?_ (List.Sublist.refl _))
        exact List.drop_sublist ..

/-! ## Windows -/

/-- Of the first `k` blocks of the chain, the latest are kept. -/
def Keeps (t : DepositTracker) (xs : List SealedBlock) (k : Nat) : Prop :=
  t.blocks = (latest t.config.maxTrackedBlocks (xs.take k)).map SealedBlock.tracked

theorem map_number (hnumbered : Numbered xs) :
    xs.map (·.block.number) = List.range xs.length := by
  refine List.ext_getElem (by simp) fun number hlt _ => ?_
  rw [List.length_map] at hlt
  simp [hnumbered number xs[number] (List.getElem?_eq_getElem hlt)]

theorem pairwise_number (hnumbered : Numbered xs) :
    xs.Pairwise (·.block.number < ·.block.number) := by
  rw [← List.pairwise_map (f := fun x : SealedBlock => x.block.number), map_number hnumbered]
  exact List.pairwise_lt_range

/-- Consecutive blocks, fetched one by one, are a piece of the chain. -/
theorem eq_tracked_of_forall₂ {start count : Nat}
    (h : List.Forall₂ (fun number b => ∃ x, xs[number]? = some x ∧ b = x.tracked)
      (List.range' start count) fetched) :
    fetched = ((xs.drop start).take count).map SealedBlock.tracked := by
  induction count generalizing start fetched with
  | zero =>
      cases h
      rfl
  | succ count ih =>
      rw [List.range'_succ] at h
      cases h with
      | cons hb hrest =>
          obtain ⟨x, hx, rfl⟩ := hb
          obtain ⟨hlt, rfl⟩ := List.getElem?_eq_some_iff.1 hx
          rw [List.drop_eq_getElem_cons hlt, List.take_succ_cons, List.map_cons, ih hrest]

namespace Keeps

/-- The blocks that are kept have consecutive numbers. -/
theorem map_number (h : t.Keeps xs k) (hnumbered : Numbered xs) (hk : k ≤ xs.length) :
    t.blocks.map (·.block.number)
      = List.range' (k - t.config.maxTrackedBlocks) (min t.config.maxTrackedBlocks k) := by
  have htracked : (fun b : TrackedBlock => b.block.number) ∘ SealedBlock.tracked
      = fun x : SealedBlock => x.block.number := rfl
  rw [h, List.map_map, htracked, ← latest_map, List.map_take, DepositTracker.map_number hnumbered,
    List.take_range, Nat.min_eq_left hk, latest, List.length_range, List.range_eq_range',
    List.drop_range']
  congr 1
  · omega
  · omega

/-- The newest of them is the last of the first `k` blocks. -/
theorem newest? (h : t.Keeps xs k) (hnumbered : Numbered xs) (hk : k ≤ xs.length)
    (hroom : 0 < t.config.maxTrackedBlocks) :
    t.newest?.map (·.block.number) = if k = 0 then none else some (k - 1) := by
  rw [DepositTracker.newest?, ← List.getLast?_map, h.map_number hnumbered hk,
    List.getLast?_range']
  by_cases hzero : k = 0
  · simp [hzero]
  · have hmin : min t.config.maxTrackedBlocks k ≠ 0 := by omega
    rw [if_neg hmin, if_neg hzero]
    congr 1
    omega

/-- What is missing starts after the newest block that is kept, or with the new window. -/
theorem missing_eq (h : t.Keeps xs k) (hnumbered : Numbered xs) (hk : k ≤ xs.length)
    (hroom : 0 < t.config.maxTrackedBlocks) (hfar : t.config.followDistance ≤ head)
    (hmissing : t.missing head = .ok numbers) :
    let first := max k (head - t.config.followDistance + 1 - t.config.maxTrackedBlocks)
    numbers = List.range' first (head - t.config.followDistance + 1 - first) := by
  intro first
  have hnewest := h.newest? hnumbered hk hroom
  simp only [missing, if_neg (Nat.not_lt.2 hfar)] at hmissing
  cases hblock : t.newest? with
  | none =>
      have hzero : k = 0 := by
        by_contra hne
        simp [hblock, hne] at hnewest
      simp only [hblock, Attempt.bind_eq_ok, Attempt.pure_eq_ok] at hmissing
      obtain ⟨start, hstart, rfl⟩ := hmissing
      have hfirst : start = first := by omega
      rw [hfirst]
  | some newest =>
      by_cases hzero : k = 0
      · simp [hblock, hzero] at hnewest
      · have hlast : newest.block.number = k - 1 := by simpa [hblock, hzero] using hnewest
        simp only [hblock, Attempt.bind_eq_ok, Word.add_eq_ok, Attempt.pure_eq_ok] at hmissing
        obtain ⟨_, ⟨rfl, -⟩, start, hstart, rfl⟩ := hmissing
        have hfirst : start = first := by omega
        rw [hfirst]

/-- Of a chain whose blocks can be numbered it is known what is missing; nothing of it is newer than
    the head. -/
theorem exists_missing (h : t.Keeps xs k) (hnumbered : Numbered xs) (hk : k ≤ xs.length)
    (hroom : 0 < t.config.maxTrackedBlocks) (hmany : xs.length < Word.limit) (head : Nat) :
    ∃ numbers, t.missing head = .ok numbers ∧ ∀ number ∈ numbers, number ≤ head := by
  unfold missing
  by_cases hfar : head < t.config.followDistance
  · exact ⟨[], by rw [if_pos hfar]; rfl, by simp⟩
  · have hnewest := h.newest? hnumbered hk hroom
    have hbound (start : Nat) : ∀ number ∈ List.range' start
        (head - t.config.followDistance + 1 - start), number ≤ head := by
      intro number hnumber
      rw [List.mem_range'_1] at hnumber
      omega
    simp only [if_neg hfar]
    cases hblock : t.newest? with
    | none => exact ⟨_, rfl, hbound _⟩
    | some newest =>
        have hlast : newest.block.number + 1 < Word.limit := by
          by_cases hzero : k = 0
          · simp [hblock, hzero] at hnewest
          · have hnumber : newest.block.number = k - 1 := by simpa [hblock, hzero] using hnewest
            omega
        exact ⟨_, by simp only [Word.add_eq_ok.2 ⟨rfl, hlast⟩]; rfl, hbound _⟩

/-- A longer chain begins with the same blocks. -/
theorem append (h : t.Keeps xs k) (hk : k ≤ xs.length) (ys : List SealedBlock) :
    t.Keeps (xs ++ ys) k := by
  rw [Keeps, List.take_append_of_le_length hk]
  exact h

/-- Each block that is kept is a block of the chain with its record. -/
theorem exists_tracked (h : t.Keeps xs k) (hnumbered : Numbered xs) (hb : b ∈ t.blocks) :
    ∃ x, xs[b.block.number]? = some x ∧ b = x.tracked := by
  rw [h, List.mem_map] at hb
  obtain ⟨x, hx, rfl⟩ := hb
  obtain ⟨number, hlt, rfl⟩ := List.mem_iff_getElem.1 (List.mem_of_mem_take (List.mem_of_mem_drop hx))
  have hget := List.getElem?_eq_getElem hlt
  refine ⟨xs[number], ?_, rfl⟩
  rw [SealedBlock.tracked, hnumbered number _ hget]
  exact hget

/-- Keeping what was missing behind a head gives the window behind it. -/
theorem foldl_fetched {e : Endpoint} {since : Nat} (h : t.Keeps xs k) (hnumbered : Numbered xs)
    (hroom : 0 < t.config.maxTrackedBlocks) (hfar : t.config.followDistance ≤ head)
    (hlater : k ≤ head - t.config.followDistance + 1) (hhead : head < xs.length)
    (hmissing : t.missing head = .ok numbers) (he : e.TrueTo xs since)
    (hsizes : ∀ x ∈ xs, x.log.size < Word.limit)
    (hfetched : numbers.mapM (t.fetch e) = .ok fetched) :
    (fetched.foldl insert t).Keeps xs (head - t.config.followDistance + 1) := by
  have hk : k ≤ xs.length := by omega
  rw [h.missing_eq hnumbered hk hroom hfar hmissing] at hfetched
  have hpieces := eq_tracked_of_forall₂ ((Attempt.mapM_eq_ok hfetched).imp fun number b hb =>
    eq_tracked_of_fetch he hsizes hb)
  generalize hend : head - t.config.followDistance + 1 = stop at *
  generalize hfirst : max k (stop - t.config.maxTrackedBlocks) = first at *
  have hsplit : xs.take first ++ (xs.drop first).take (stop - first) = xs.take stop := by
    have hstop : stop = first + (stop - first) := by omega
    conv_rhs => rw [hstop, List.take_add]
  -- What is kept and what is fetched are pieces of the chain, one after the other.
  have hblocks : latest t.config.maxTrackedBlocks (t.blocks ++ fetched)
      = (latest t.config.maxTrackedBlocks (xs.take stop)).map SealedBlock.tracked := by
    rw [h, hpieces, ← List.map_append, latest_map, ← hsplit]
    by_cases hnear : stop - t.config.maxTrackedBlocks ≤ k
    · rw [latest_append, show first = k by omega]
    · have hmany : t.config.maxTrackedBlocks ≤ ((xs.drop first).take (stop - first)).length := by
        rw [List.length_take, List.length_drop]
        omega
      rw [latest_append_of_le _ hmany, latest_append_of_le _ hmany]
  rw [foldl_insert ?_ ?_]
  · exact hblocks
  · rw [h, List.length_map, latest, List.length_drop]
    omega
  · -- The numbers go on increasing, as those of the chain do.
    rw [h, hpieces, ← List.map_append, List.pairwise_map]
    have hfront : (latest t.config.maxTrackedBlocks (xs.take k)).Sublist (xs.take first) :=
      (List.drop_sublist ..).trans (List.take_sublist_take_left (by omega))
    have hall := hfront.append (List.take_sublist (stop - first) (xs.drop first))
    rw [List.take_append_drop] at hall
    exact (pairwise_number hnumbered).sublist hall

end Keeps

end DepositTracker

end Beacon
