import Mathlib
import Beacon.Proofs.Duties.Entries

set_option autoImplicit false

/-! # The window of a schedule

What is kept of a schedule is a matter of its entries and of the loads that are outstanding, ordered
or under way (`Schedule.Kept`): entries lie in the window, no epoch is loaded twice at a time, and
an epoch is being loaded just when it has an entry and a load. A load whose entry has been forgotten
is for an epoch before the window, which no signal brings back. What becomes of a schedule
(`Schedule.Follows`): the current epoch does not go back, and loaded duties stay until they are
forgotten. Both are shown here for each thing that may be done to a schedule. -/

namespace Beacon

variable {e : Epoch}

/-! ## What is kept of a schedule -/

/-- A schedule whose loads, ordered or under way, are these. -/
structure Schedule.Kept (s : Schedule) (loads : List Epoch) : Prop where
  sorted : s.Sorted
  window : ∀ e, s.duties? e ≠ none →
    ∃ c, s.current = some c ∧ c - 1 ≤ e ∧ e ≤ Word.addSat c s.lookahead
  single : loads.Nodup
  loading : ∀ e pending, s.duties? e = some (.loading pending) → e ∈ loads
  loads : ∀ e ∈ loads, (∃ pending, s.duties? e = some (.loading pending)) ∨
    (s.duties? e = none ∧ ∃ c, s.current = some c ∧ e < c - 1)

namespace Schedule

variable {s : Schedule} {loads loads' : List Epoch}

theorem addSat_le_addSat {a b : Nat} (h : a ≤ b) (c : Nat) : Word.addSat a c ≤ Word.addSat b c :=
  min_le_min_right _ (Nat.add_le_add_right h c)

theorem inWindow_iff {c : Epoch} (h : s.current = some c) :
    s.inWindow e ↔ c - 1 ≤ e ∧ e ≤ Word.addSat c s.lookahead := by
  rw [inWindow, h, Bool.and_eq_true, decide_eq_true_eq, decide_eq_true_eq]

namespace Kept

theorem perm (h : s.Kept loads) (hperm : loads.Perm loads') : s.Kept loads' :=
  { h with
    single := hperm.nodup_iff.1 h.single
    loading := fun e pending hloading => hperm.subset (h.loading e pending hloading)
    loads := fun e he => h.loads e (hperm.symm.subset he) }

theorem create (slotsPerEpoch lookahead : Nat) : Kept { slotsPerEpoch, lookahead } [] where
  sorted := List.Pairwise.nil
  window _ h := absurd rfl h
  single := List.nodup_nil
  loading _ _ h := nomatch h
  loads _ h := absurd h List.not_mem_nil

/-- An epoch with duties that are loaded has no load. -/
theorem not_mem_of_loaded (h : s.Kept loads) {set : DutySet}
    (hloaded : s.duties? e = some (.loaded set)) : e ∉ loads := fun he => by
  rcases h.loads e he with ⟨pending, hloading⟩ | ⟨hnone, -⟩
  · exact nomatch hloaded.symm.trans hloading
  · exact nomatch hloaded.symm.trans hnone

/-- An epoch of which nothing is known and that is not before the window has no load. -/
theorem not_mem_of_none (h : s.Kept loads) (hnone : s.duties? e = none)
    (hwindow : ∀ c, s.current = some c → c - 1 ≤ e) : e ∉ loads := fun he => by
  rcases h.loads e he with ⟨pending, hloading⟩ | ⟨-, c, hcurrent, hlt⟩
  · exact nomatch hnone.symm.trans hloading
  · exact absurd (hwindow c hcurrent) (Nat.not_le_of_lt hlt)

/-- What an epoch that begins has to load has no load yet. -/
theorem not_mem_of_wanted (h : s.Kept loads) (hcurrent : ∀ c, s.current = some c → c ≤ e) {x : Epoch}
    (hx : x ∈ s.wanted e) : x ∉ loads := by
  obtain ⟨⟨hle, -⟩, hnone⟩ := mem_wanted.1 hx
  exact h.not_mem_of_none hnone fun c hc => (Nat.sub_le c 1).trans ((hcurrent c hc).trans hle)

/-- The entries of an epoch that begins lie in its window. -/
theorem window_onEpoch (h : s.Kept loads) (hpassed : ¬ s.current.any (e < ·))
    (hcurrent : ∀ c, s.current = some c → c ≤ e) {x : Epoch}
    (hx : (s.onEpoch e).2.duties? x ≠ none) : e - 1 ≤ x ∧ x ≤ Word.addSat e s.lookahead := by
  rw [duties?_onEpoch hpassed] at hx
  split at hx
  case isTrue hwanted =>
      obtain ⟨⟨hle, hahead⟩, -⟩ := mem_wanted.1 hwanted
      exact ⟨(Nat.sub_le e 1).trans hle, hahead⟩
  case isFalse =>
      split at hx
      case isTrue hkept =>
          obtain ⟨c, hc, -, hahead⟩ := h.window x hx
          exact ⟨hkept, hahead.trans (addSat_le_addSat (hcurrent c hc) _)⟩
      case isFalse => exact absurd rfl hx

/-- The loads that the beginning of an epoch orders are those that it enters. -/
theorem onEpoch (h : s.Kept loads) (e : Epoch) :
    (s.onEpoch e).2.Kept (loads ++ (s.onEpoch e).1.filterMap Order.load?) := by
  by_cases hpassed : s.current.any (e < ·)
  · rw [onEpoch_of_passed hpassed, List.filterMap_nil, List.append_nil]
    exact h
  have hcurrent : ∀ c, s.current = some c → c ≤ e := fun c hc => by
    rw [hc, Option.any_some, decide_eq_true_eq] at hpassed
    exact Nat.le_of_not_lt hpassed
  have hloads : (s.onEpoch e).1.filterMap Order.load? = s.wanted e := by
    rw [onEpoch_of_not_passed hpassed, List.filterMap_cons_none rfl, List.filterMap_map]
    exact List.filterMap_some
  have hnow : (s.onEpoch e).2.current = some e := by
    rw [onEpoch_of_not_passed hpassed, begun_eq]
    rfl
  rw [hloads]
  refine ⟨h.sorted.onEpoch e, fun x hx => ⟨e, hnow, ?_⟩, ?_, fun x pending hx => ?_, fun x hx => ?_⟩
  · rw [lookahead_onEpoch]
    exact h.window_onEpoch hpassed hcurrent hx
  · exact List.nodup_append.2 ⟨h.single, s.nodup_wanted e, fun x hx y hy hxy =>
      h.not_mem_of_wanted hcurrent hy (hxy ▸ hx)⟩
  · rw [duties?_onEpoch hpassed] at hx
    split at hx
    case isTrue hwanted => exact List.mem_append_right _ hwanted
    case isFalse =>
        split at hx
        case isTrue => exact List.mem_append_left _ (h.loading x pending hx)
        case isFalse => exact nomatch hx
  · rw [duties?_onEpoch hpassed]
    split
    case isTrue => exact .inl ⟨[], rfl⟩
    case isFalse hwanted =>
        have hold := (List.mem_append.1 hx).resolve_right hwanted
        split
        case isTrue hkept =>
            refine (h.loads x hold).imp_right fun ⟨hnone, c, hc, hlt⟩ => ⟨hnone, e, hnow, ?_⟩
            have hce := hcurrent c hc
            lia
        case isFalse hgone => exact .inr ⟨rfl, e, hnow, Nat.lt_of_not_le hgone⟩

/-- An entry that is put for a load changes nothing else. -/
theorem put_loading (h : s.Kept loads) (pending : List (Slot × Nat)) (hload : e ∈ loads')
    (hsame : ∀ x, x ≠ e → (x ∈ loads' ↔ x ∈ loads)) (hsingle : loads'.Nodup)
    (hwindow : ∃ c, s.current = some c ∧ c - 1 ≤ e ∧ e ≤ Word.addSat c s.lookahead) :
    (s.put e (.loading pending)).Kept loads' := by
  refine ⟨h.sorted.put e _, fun x hx => ?_, hsingle, fun x waiting hx => ?_, fun x hx => ?_⟩
  · rw [duties?_put] at hx
    split at hx
    case isTrue heq => exact heq ▸ hwindow
    case isFalse => exact h.window x hx
  · rw [duties?_put] at hx
    split at hx
    case isTrue heq => exact heq ▸ hload
    case isFalse hne => exact (hsame x hne).2 (h.loading x waiting hx)
  · rw [duties?_put]
    split
    case isTrue => exact .inl ⟨pending, rfl⟩
    case isFalse hne => exact h.loads x ((hsame x hne).1 hx)

/-- A slot signal orders a load at most for an epoch that has none. -/
theorem serve (h : s.Kept loads) (hbegun : s.current ≠ none) (slot : Slot) (now : Nat) :
    (s.serve slot now).2.Kept (loads ++ (s.serve slot now).1.filterMap Order.load?) := by
  obtain ⟨c, hcurrent⟩ := Option.ne_none_iff_exists'.1 hbegun
  rcases s.serve_cases slot now with ⟨set, -, heq⟩ | ⟨pending, hloading, heq⟩ |
    ⟨hnone, hwindow, heq⟩ | ⟨-, -, heq⟩
  · rw [heq, List.filterMap_cons_none rfl, List.filterMap_nil, List.append_nil]
    exact h
  · rw [heq, List.filterMap_nil, List.append_nil]
    refine h.put_loading _ (h.loading _ _ hloading) (fun _ _ => Iff.rfl) h.single (h.window _ ?_)
    exact hloading ▸ Option.some_ne_none _
  · rw [heq]
    change (s.put _ _).Kept (loads ++ [slot / s.slotsPerEpoch])
    have hinside := (inWindow_iff hcurrent).1 hwindow
    have hnew := h.not_mem_of_none hnone fun b hb =>
      Option.some.inj (hb.symm.trans hcurrent) ▸ hinside.1
    have hsingle := h.single.append (List.nodup_singleton _) (List.disjoint_singleton.2 hnew)
    refine h.put_loading _ (List.mem_append_right _ (List.mem_singleton_self _)) (fun x hx => ?_)
      hsingle ⟨c, hcurrent, hinside⟩
    rw [List.mem_append, List.mem_singleton, or_iff_left hx]
  · rw [heq, List.filterMap_nil, List.append_nil]
    exact h

/-- A load that has ended concerns the entry of its epoch alone, which waits no longer. -/
theorem ended {s' : Schedule} (h : s.Kept (e :: loads)) (hsorted : s'.Sorted)
    (hcurrent : s'.current = s.current) (hlookahead : s'.lookahead = s.lookahead)
    (hother : ∀ x, x ≠ e → s'.duties? x = s.duties? x)
    (hentry : s'.duties? e ≠ none → s.duties? e ≠ none)
    (hnew : ∀ pending, s'.duties? e ≠ some (.loading pending)) : s'.Kept loads := by
  obtain ⟨hfresh, hsingle⟩ := List.nodup_cons.1 h.single
  refine ⟨hsorted, fun x hx => ?_, hsingle, fun x pending hx => ?_, fun x hx => ?_⟩
  · rw [hcurrent, hlookahead]
    by_cases heq : x = e
    · exact h.window x (heq ▸ hentry (heq ▸ hx))
    · exact h.window x (hother x heq ▸ hx)
  · by_cases heq : x = e
    · exact absurd (heq ▸ hx) (hnew pending)
    · exact (List.mem_cons.1 (h.loading x pending (hother x heq ▸ hx))).resolve_left heq
  · have heq : x ≠ e := fun heq => hfresh (heq ▸ hx)
    rw [hother x heq, hcurrent]
    exact h.loads x (List.mem_cons_of_mem e hx)

theorem finish (h : s.Kept (e :: loads)) (result : Except LoadError DutySet) :
    (s.finish e result).2.Kept loads := by
  have hunloaded : ∀ set, s.duties? e ≠ some (.loaded set) := fun set hloaded =>
    h.not_mem_of_loaded hloaded List.mem_cons_self
  rcases s.finish_cases e result hunloaded with ⟨hnone, heq⟩ | ⟨pending, set, hloading, -, heq⟩ |
    ⟨pending, cause, hloading, -, heq⟩
  · rw [heq]
    refine h.ended h.sorted rfl rfl (fun _ _ => rfl) id fun pending hloading => ?_
    exact nomatch hnone.symm.trans hloading
  · rw [heq]
    refine h.ended (h.sorted.put e _) rfl rfl (fun x hx => duties?_put_of_ne s _ hx) (fun _ => ?_)
      fun waiting hwaiting => ?_
    · exact hloading ▸ Option.some_ne_none _
    · rw [duties?_put_self] at hwaiting
      exact nomatch hwaiting
  · rw [heq]
    refine h.ended (h.sorted.filter _) rfl rfl (fun x hx => ?_) (fun _ => ?_)
      fun waiting hwaiting => ?_
    · rw [duties?_erase, if_neg hx]
    · exact hloading ▸ Option.some_ne_none _
    · rw [duties?_erase, if_pos rfl] at hwaiting
      exact nomatch hwaiting

/-- An epoch before the window has no entry. -/
theorem duties?_eq_none (h : s.Kept loads) (hgone : ∃ c, s.current = some c ∧ e < c - 1) :
    s.duties? e = none := by
  obtain ⟨c, hc, hlt⟩ := hgone
  by_contra hentry
  obtain ⟨b, hb, hle, -⟩ := h.window e hentry
  rw [Option.some.inj (hb.symm.trans hc)] at hle
  exact absurd hle (Nat.not_le_of_lt hlt)

end Kept

/-! ## What becomes of a schedule -/

/-- A later state of a schedule: the current epoch has not gone back, and what was loaded is still
    there unless its epoch has been forgotten. -/
structure Follows (s s' : Schedule) : Prop where
  slotsPerEpoch : s'.slotsPerEpoch = s.slotsPerEpoch
  lookahead : s'.lookahead = s.lookahead
  current : ∀ c, s.current = some c → ∃ c', s'.current = some c' ∧ c ≤ c'
  loaded : ∀ e set, s.duties? e = some (.loaded set) → s'.duties? e = some (.loaded set) ∨
    (s'.duties? e = none ∧ ∃ c, s'.current = some c ∧ e < c - 1)

theorem Follows.refl (s : Schedule) : Follows s s :=
  ⟨rfl, rfl, fun c hc => ⟨c, hc, le_rfl⟩, fun _ _ hloaded => .inl hloaded⟩

/-- An epoch that is before the window stays there. -/
theorem Follows.exists_lt {s' : Schedule} (h : Follows s s')
    (hgone : ∃ c, s.current = some c ∧ e < c - 1) : ∃ c, s'.current = some c ∧ e < c - 1 := by
  obtain ⟨c, hc, hlt⟩ := hgone
  obtain ⟨b, hb, hle⟩ := h.current c hc
  exact ⟨b, hb, hlt.trans_le (Nat.sub_le_sub_right hle 1)⟩

theorem follows_onEpoch (s : Schedule) (e : Epoch) : Follows s (s.onEpoch e).2 := by
  refine ⟨s.slotsPerEpoch_onEpoch e, s.lookahead_onEpoch e, fun c hc => ?_, fun x set hloaded => ?_⟩
  · obtain ⟨c', hcurrent, -, hle⟩ := s.exists_current_onEpoch e
    exact ⟨c', hcurrent, hle c hc⟩
  · by_cases hpassed : s.current.any (e < ·)
    · rw [onEpoch_of_passed hpassed]
      exact .inl hloaded
    · have hkept : x ∉ s.wanted e := fun hx => nomatch hloaded.symm.trans (mem_wanted.1 hx).2
      rw [duties?_onEpoch hpassed, if_neg hkept]
      split
      case isTrue => exact .inl hloaded
      case isFalse hgone =>
          refine .inr ⟨rfl, e, ?_, Nat.lt_of_not_le hgone⟩
          rw [onEpoch_of_not_passed hpassed, begun_eq]
          rfl

/-- An entry that is changed was not of a loaded epoch. -/
theorem follows_of_entry {e : Epoch} {epochs : List (Epoch × EpochDuties)}
    (hentry : ∀ set, s.duties? e ≠ some (.loaded set))
    (hother : ∀ x, x ≠ e → ({ s with epochs } : Schedule).duties? x = s.duties? x) :
    Follows s { s with epochs } := by
  refine ⟨rfl, rfl, fun c hc => ⟨c, hc, le_rfl⟩, fun x set hloaded => .inl ?_⟩
  have hne : x ≠ e := fun heq => hentry set (heq ▸ hloaded)
  rw [hother x hne, hloaded]

theorem follows_serve (s : Schedule) (slot : Slot) (now : Nat) :
    Follows s (s.serve slot now).2 := by
  rcases s.serve_cases slot now with ⟨_, -, heq⟩ | ⟨_, hloading, heq⟩ | ⟨hnone, -, heq⟩ |
    ⟨-, -, heq⟩
  · exact heq ▸ .refl s
  · rw [heq]
    refine follows_of_entry (fun set hloaded => ?_) fun x hx => duties?_put_of_ne s _ hx
    exact nomatch hloading.symm.trans hloaded
  · rw [heq]
    refine follows_of_entry (fun set hloaded => ?_) fun x hx => duties?_put_of_ne s _ hx
    exact nomatch hnone.symm.trans hloaded
  · exact heq ▸ .refl s

theorem follows_finish {e : Epoch} (hentry : ∀ set, s.duties? e ≠ some (.loaded set))
    (result : Except LoadError DutySet) : Follows s (s.finish e result).2 := by
  rcases s.finish_cases e result hentry with ⟨-, heq⟩ | ⟨_, _, -, -, heq⟩ | ⟨_, _, -, -, heq⟩
  · exact heq ▸ .refl s
  · exact heq ▸ follows_of_entry hentry fun x hx => duties?_put_of_ne s _ hx
  · rw [heq]
    refine follows_of_entry hentry fun x hx => ?_
    exact (duties?_erase s e x).trans (if_neg hx)

end Schedule

end Beacon
