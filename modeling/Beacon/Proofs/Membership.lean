import Mathlib
import Beacon.Node.BeaconNode

set_option autoImplicit false

/-! # Subnet membership mirrors live requests

A tracker is asked for subnets and told of slots, in any order, and tells the network what to join
and what to leave. `SubnetTracker.Mirrors` ties the two together: the network has joined what the
tracker tracks, and hears of each subnet in turn that it is to be joined and left. Every call keeps
this (`Mirrors.answer`), since a subnet is joined only when it is not tracked, and left only when it
is. The expiry of a subnet is the latest slot that has been asked for since it was joined
(`exists_joinedSince`), as it can only be put off until the subnet is left. -/

namespace Beacon

/-! ## What the network hears -/

namespace Membership

/-- The subnet that a message is about. -/
def subnet : Membership → Subnet
  | .join x | .leave x => x

/-- Joining a subnet and leaving it in turn, `n` messages in all. -/
def alternating (x : Subnet) (n : Nat) : List Membership :=
  (List.range n).map fun i => if i % 2 = 0 then .join x else .leave x

theorem alternating_succ (x : Subnet) (n : Nat) :
    alternating x (n + 1) = alternating x n ++ [if n % 2 = 0 then .join x else .leave x] := by
  simp [alternating, List.range_succ]

theorem mem_applyTo_join {joined : List Subnet} {x y : Subnet} :
    y ∈ (join x).applyTo joined ↔ y = x ∨ y ∈ joined := by
  simp only [applyTo, List.mem_append, List.mem_filter, List.mem_cons, decide_eq_true_eq]
  rcases lt_trichotomy y x with hlt | rfl | hlt
  · simp [hlt, hlt.ne, hlt.le]
  · simp
  · simp [hlt, hlt.ne', hlt.le]

/-- Joined subnets stay in increasing order. -/
theorem pairwise_applyTo_join {joined : List Subnet} (h : joined.Pairwise (· < ·)) (x : Subnet) :
    ((join x).applyTo joined).Pairwise (· < ·) := by
  refine List.pairwise_append.2 ⟨h.filter _, List.pairwise_cons.2 ⟨?_, h.filter _⟩, ?_⟩
  · intro y hy
    simpa using (List.mem_filter.1 hy).2
  · intro y hy z hz
    have hyx : y < x := by simpa using (List.mem_filter.1 hy).2
    rcases List.mem_cons.1 hz with rfl | hz
    · exact hyx
    · have hxz : x < z := by simpa using (List.mem_filter.1 hz).2
      exact hyx.trans hxz

/-- Leaving some subnets takes them from those that are joined. -/
theorem foldl_applyTo_leave (joined left : List Subnet) :
    (left.map leave).foldl applyTo joined = joined.filter (· ∉ left) := by
  induction left generalizing joined with
  | nil => simp
  | cons x left ih =>
      rw [List.map_cons, List.foldl_cons, ih, applyTo, List.filter_filter]
      refine List.filter_congr fun y _ => ?_
      by_cases hy : y = x <;> simp [hy]

end Membership

/-! ## Calls -/

/-- What a tracker is asked for or told. -/
inductive SubnetCall where
  /-- The subnet of a committee is needed through a slot. -/
  | subscribe (committee : CommitteeIndex) (slot : Slot)
  /-- A slot begins. -/
  | onSlot (slot : Slot)

namespace SubnetTracker

variable {t : SubnetTracker} {x : Subnet} {committee : CommitteeIndex} {slot expiry : Slot}

/-- The tracker after a call, and what it tells the network. -/
def answer (t : SubnetTracker) : SubnetCall → SubnetTracker × List Membership
  | .subscribe committee slot => t.subscribe committee slot
  | .onSlot slot => t.onSlot slot

/-- The tracker after some calls, the first one first. -/
def after (t : SubnetTracker) (calls : List SubnetCall) : SubnetTracker :=
  calls.foldl (fun t call => (t.answer call).1) t

/-- What some calls make the tracker tell the network. -/
def messages (t : SubnetTracker) : List SubnetCall → List Membership
  | [] => []
  | call :: calls => (t.answer call).2 ++ (t.answer call).1.messages calls

theorem after_append (t : SubnetTracker) (calls later : List SubnetCall) :
    t.after (calls ++ later) = (t.after calls).after later := by
  simp [after]

theorem messages_append (t : SubnetTracker) (calls later : List SubnetCall) :
    t.messages (calls ++ later) = t.messages calls ++ (t.after calls).messages later := by
  induction calls generalizing t with
  | nil => rfl
  | cons call calls ih => simp [messages, after, ih]

theorem after_concat (t : SubnetTracker) (calls : List SubnetCall) (call : SubnetCall) :
    t.after (calls ++ [call]) = ((t.after calls).answer call).1 :=
  after_append ..

theorem messages_concat (t : SubnetTracker) (calls : List SubnetCall) (call : SubnetCall) :
    t.messages (calls ++ [call]) = t.messages calls ++ ((t.after calls).answer call).2 := by
  simp [messages_append, messages]

/-! ## Single calls -/

/-- Subnets are in increasing order. -/
def Sorted (t : SubnetTracker) : Prop := t.expiries.Pairwise (·.1 < ·.1)

theorem count_answer (t : SubnetTracker) (call : SubnetCall) : (t.answer call).1.count = t.count := by
  cases call with
  | subscribe committee slot =>
      simp only [answer, subscribe]
      split <;> rfl
  | onSlot slot => rfl

theorem count_after (t : SubnetTracker) (calls : List SubnetCall) :
    (t.after calls).count = t.count := by
  induction calls using List.reverseRecOn with
  | nil => rfl
  | append_singleton calls call ih => rw [after_concat, count_answer, ih]

/-- Calls do not change which subnet a committee has. -/
theorem subnetFor_after (t : SubnetTracker) (calls : List SubnetCall) :
    (t.after calls).subnetFor committee = t.subnetFor committee := by
  rw [subnetFor, subnetFor, count_after]

theorem mem_active_iff : x ∈ t.active ↔ ∃ expiry, t.expiry? x = some expiry := by
  rw [← Option.ne_none_iff_exists', expiry?, ne_eq, Option.map_eq_none_iff, List.find?_eq_none]
  simp [active]

theorem expiry?_eq_none_iff : t.expiry? x = none ↔ x ∉ t.active := by
  rw [mem_active_iff, ← Option.ne_none_iff_exists', ne_eq, not_not]

theorem sorted_iff : t.Sorted ↔ t.active.Pairwise (· < ·) := List.pairwise_map.symm

theorem Sorted.pairwise_active (h : t.Sorted) : t.active.Pairwise (· < ·) := sorted_iff.1 h

/-- A tracked subnet has one expiry. -/
theorem Sorted.expiry?_eq_some_iff (h : t.Sorted) :
    t.expiry? x = some expiry ↔ (x, expiry) ∈ t.expiries := by
  rw [expiry?, Option.map_eq_some_iff]
  constructor
  · rintro ⟨⟨y, m⟩, hfind, rfl⟩
    have hy : y = x := by simpa using List.find?_some hfind
    exact hy ▸ List.mem_of_find?_eq_some hfind
  · intro hmem
    obtain ⟨⟨y, m⟩, hfind⟩ : ∃ y, t.expiries.find? (·.1 == x) = some y := by
      rw [← Option.isSome_iff_exists, List.find?_isSome]
      exact ⟨_, hmem, beq_self_eq_true x⟩
    have hy : y = x := by simpa using List.find?_some hfind
    -- Both are entries of one subnet, so they are the same entry.
    have heq : (y, m) = (x, expiry) :=
      List.inj_on_of_nodup_map h.pairwise_active.nodup (List.mem_of_find?_eq_some hfind) hmem hy
    exact ⟨_, hfind, congrArg Prod.snd heq⟩

/-- What is put in its place is found there. -/
theorem find?_insert (x : Subnet) (expiry : Slot) (y : Subnet) (xs : List (Subnet × Slot))
    (hnew : x ∉ xs.map (·.1)) :
    (insert x expiry xs).find? (·.1 == y)
      = if y = x then some (x, expiry) else xs.find? (·.1 == y) := by
  induction xs with
  | nil => grind [insert]
  | cons z zs ih => grind [insert]

/-- A new subnet comes after the smaller ones and before the larger ones. -/
theorem map_fst_insert {xs : List (Subnet × Slot)} (h : xs.Pairwise (·.1 < ·.1))
    (hnew : x ∉ xs.map (·.1)) (expiry : Slot) :
    (insert x expiry xs).map (·.1) = (Membership.join x).applyTo (xs.map (·.1)) := by
  induction xs with
  | nil => rfl
  | cons y ys ih =>
      obtain ⟨hfirst, hrest⟩ := List.pairwise_cons.1 h
      simp only [List.map_cons, List.mem_cons, not_or] at hnew
      obtain ⟨hne, hnew⟩ := hnew
      rw [insert]
      split
      · next hlt =>
          -- All the others are larger as well.
          have hall : ∀ z ∈ (y :: ys).map (·.1), x < z := by
            simp only [List.map_cons, List.forall_mem_cons, List.forall_mem_map]
            exact ⟨hlt, fun z hz => hlt.trans (hfirst z hz)⟩
          have hnone : ((y :: ys).map (·.1)).filter (· < x) = [] :=
            List.filter_eq_nil_iff.2 fun z hz => by simpa using (hall z hz).le
          have hsome : ((y :: ys).map (·.1)).filter (x < ·) = (y :: ys).map (·.1) :=
            List.filter_eq_self.2 fun z hz => by simpa using hall z hz
          rw [Membership.applyTo, hnone, hsome]
          rfl
      · next hle =>
          have hlt : y.1 < x := lt_of_le_of_ne (Nat.le_of_not_lt hle) (Ne.symm hne)
          simp [ih hrest hnew, Membership.applyTo, hlt, hlt.le]

/-- A request for a tracked subnet puts off its expiry. -/
theorem subscribe_of_some (h : t.expiry? (t.subnetFor committee) = some expiry) (slot : Slot) :
    t.subscribe committee slot =
      ({ t with
        expiries := t.expiries.map fun y =>
          if y.1 = t.subnetFor committee then (y.1, max y.2 slot) else y }, []) := by
  simp only [subscribe, h]

/-- A request for any other subnet joins it. -/
theorem subscribe_of_none (h : t.expiry? (t.subnetFor committee) = none) (slot : Slot) :
    t.subscribe committee slot =
      ({ t with expiries := insert (t.subnetFor committee) slot t.expiries },
        [.join (t.subnetFor committee)]) := by
  simp only [subscribe, h]

theorem expiry?_subscribe (t : SubnetTracker) (committee : CommitteeIndex) (slot : Slot)
    (x : Subnet) :
    (t.subscribe committee slot).1.expiry? x =
      if x = t.subnetFor committee then some (((t.expiry? x).map (max · slot)).getD slot)
      else t.expiry? x := by
  cases hold : t.expiry? (t.subnetFor committee) with
  | some expiry =>
      -- No entry changes its subnet, so the search comes to the same one.
      have hsame : (fun y : Subnet × Slot => y.1 == x) ∘
          (fun y => if y.1 = t.subnetFor committee then (y.1, max y.2 slot) else y)
            = (·.1 == x) := by
        funext y
        simp only [Function.comp_apply]
        split <;> rfl
      rw [subscribe_of_some hold, expiry?, List.find?_map, hsame, expiry?]
      cases hfind : t.expiries.find? (·.1 == x) with
      | none =>
          have hne : x ≠ t.subnetFor committee := by
            rintro rfl
            simp [expiry?, hfind] at hold
          simp [hne]
      | some y =>
          have hy : y.1 = x := by simpa using List.find?_some hfind
          by_cases hx : x = t.subnetFor committee <;> simp [hy, hx]
  | none =>
      rw [subscribe_of_none hold, expiry?, find?_insert _ _ _ _ (expiry?_eq_none_iff.1 hold)]
      split
      · next heq => simp [heq, hold]
      · rfl

/-- A slot lets go of the expiries before it. -/
theorem Sorted.expiry?_onSlot (h : t.Sorted) (slot : Slot) (x : Subnet) :
    (t.onSlot slot).1.expiry? x = (t.expiry? x).filter (slot ≤ ·) := by
  have hrest : (t.onSlot slot).1.Sorted := List.Pairwise.filter _ h
  ext m
  rw [hrest.expiry?_eq_some_iff, Option.filter_eq_some_iff, h.expiry?_eq_some_iff]
  simp [onSlot]

/-- The subnets that a slot leaves are those that expire before it. -/
theorem Sorted.mem_expired_iff (h : t.Sorted) :
    x ∈ t.expired slot ↔ ∃ expiry, t.expiry? x = some expiry ∧ expiry < slot := by
  simp [expired, h.expiry?_eq_some_iff]

theorem Sorted.pairwise_expired (h : t.Sorted) (slot : Slot) :
    (t.expired slot).Pairwise (· < ·) :=
  List.pairwise_map.2 (List.Pairwise.filter _ h)

/-! ## The tracker and the network -/

/-- The network has joined the tracked subnets, and hears of each one in turn that it is to be
    joined and left. -/
structure Mirrors (t : SubnetTracker) (told : List Membership) : Prop where
  sorted : t.Sorted
  joined : told.foldl Membership.applyTo [] = t.active
  alternates : ∀ x, ∃ n, told.filter (·.subnet = x) = Membership.alternating x n ∧
    (x ∈ t.active ↔ n % 2 = 1)

theorem mirrors_create (count : Nat) : (create count).Mirrors [] :=
  ⟨List.Pairwise.nil, rfl, fun x => ⟨0, rfl, by simp [create, active]⟩⟩

variable {told : List Membership}

/-- A message about a subnet goes on with the alternation if it changes whether the subnet is
    tracked. -/
theorem Mirrors.next {t' : SubnetTracker} (h : t.Mirrors told) (x : Subnet)
    {new : List Membership}
    (hnew : new.filter (·.subnet = x) = [] ∧ (x ∈ t'.active ↔ x ∈ t.active) ∨
      new.filter (·.subnet = x) = [.join x] ∧ x ∉ t.active ∧ x ∈ t'.active ∨
      new.filter (·.subnet = x) = [.leave x] ∧ x ∈ t.active ∧ x ∉ t'.active) :
    ∃ n, (told ++ new).filter (·.subnet = x) = Membership.alternating x n ∧
      (x ∈ t'.active ↔ n % 2 = 1) := by
  obtain ⟨n, hsame, hodd⟩ := h.alternates x
  rw [List.filter_append, hsame]
  rcases hnew with ⟨hnone, hstays⟩ | ⟨hjoin, hout, hin⟩ | ⟨hleave, hin, hout⟩
  · exact ⟨n, by rw [hnone, List.append_nil], hstays.trans hodd⟩
  · have heven : n % 2 = 0 := by
      have := mt hodd.2 hout
      omega
    refine ⟨n + 1, ?_, iff_of_true hin (by omega)⟩
    rw [hjoin, Membership.alternating_succ, if_pos heven]
  · have hone : n % 2 = 1 := hodd.1 hin
    refine ⟨n + 1, ?_, iff_of_false hout (by omega)⟩
    rw [hleave, Membership.alternating_succ, if_neg (by omega)]

/-- A request joins its subnet exactly if it is not tracked. -/
theorem Mirrors.subscribe (h : t.Mirrors told) (committee : CommitteeIndex) (slot : Slot) :
    (t.subscribe committee slot).1.Mirrors (told ++ (t.subscribe committee slot).2) := by
  cases hold : t.expiry? (t.subnetFor committee) with
  | some expiry =>
      have hactive : (t.subscribe committee slot).1.active = t.active := by
        rw [subscribe_of_some hold, active, active, List.map_map]
        refine List.map_congr_left fun y _ => ?_
        simp only [Function.comp_apply]
        split <;> rfl
      rw [show (t.subscribe committee slot).2 = [] by rw [subscribe_of_some hold]]
      refine ⟨?_, ?_, fun x => h.next x (Or.inl ⟨rfl, by rw [hactive]⟩)⟩
      · rw [sorted_iff, hactive]
        exact h.sorted.pairwise_active
      · rw [List.append_nil, hactive]
        exact h.joined
  | none =>
      have hnew := expiry?_eq_none_iff.1 hold
      have hactive : (t.subscribe committee slot).1.active
          = (Membership.join (t.subnetFor committee)).applyTo t.active := by
        rw [subscribe_of_none hold]
        exact map_fst_insert h.sorted hnew slot
      have hmem (x : Subnet) : x ∈ (t.subscribe committee slot).1.active ↔
          x = t.subnetFor committee ∨ x ∈ t.active := by
        rw [hactive, Membership.mem_applyTo_join]
      rw [show (t.subscribe committee slot).2 = [.join (t.subnetFor committee)] by
        rw [subscribe_of_none hold]]
      refine ⟨?_, ?_, fun x => h.next x ?_⟩
      · rw [sorted_iff, hactive]
        exact Membership.pairwise_applyTo_join h.sorted.pairwise_active _
      · rw [List.foldl_append, h.joined, hactive]
        rfl
      · by_cases hx : x = t.subnetFor committee
        · subst hx
          exact Or.inr (Or.inl ⟨by simp [Membership.subnet], hnew, (hmem _).2 (Or.inl rfl)⟩)
        · refine Or.inl ⟨?_, ?_⟩
          · simp [Membership.subnet, Ne.symm hx]
          · rw [hmem, or_iff_right hx]

/-- A slot leaves each subnet that it leaves once. -/
theorem filter_leave {left : List Subnet} (h : left.Nodup) (x : Subnet) :
    (left.map Membership.leave).filter (·.subnet = x)
      = if x ∈ left then [.leave x] else [] := by
  induction left with
  | nil => rfl
  | cons y left ih =>
      obtain ⟨hy, hleft⟩ := List.nodup_cons.1 h
      rw [List.map_cons, List.filter_cons, ih hleft]
      by_cases hx : y = x
      · subst hx
        simp [Membership.subnet, hy]
      · simp [Membership.subnet, hx, Ne.symm hx]

theorem Mirrors.onSlot (h : t.Mirrors told) (slot : Slot) :
    (t.onSlot slot).1.Mirrors (told ++ (t.onSlot slot).2) := by
  have hactive : (t.onSlot slot).1.active = t.active.filter (· ∉ t.expired slot) := by
    rw [SubnetTracker.onSlot, active, active, List.filter_map]
    refine congrArg _ (List.filter_congr fun y hy => ?_)
    have hone := h.sorted.expiry?_eq_some_iff.2 (show (y.1, y.2) ∈ t.expiries from hy)
    simp [h.sorted.mem_expired_iff, hone]
  have hmem (x : Subnet) : x ∈ (t.onSlot slot).1.active ↔ x ∈ t.active ∧ x ∉ t.expired slot := by
    simp [hactive]
  refine ⟨List.Pairwise.filter _ h.sorted, ?_, fun x => h.next x ?_⟩
  · rw [List.foldl_append, h.joined, hactive]
    exact Membership.foldl_applyTo_leave ..
  · rw [show (t.onSlot slot).2 = (t.expired slot).map .leave from rfl,
      filter_leave (h.sorted.pairwise_expired slot).nodup]
    by_cases hx : x ∈ t.expired slot
    · obtain ⟨expiry, hexpiry, -⟩ := h.sorted.mem_expired_iff.1 hx
      refine Or.inr (Or.inr ⟨if_pos hx, mem_active_iff.2 ⟨expiry, hexpiry⟩, ?_⟩)
      simp [hmem, hx]
    · exact Or.inl ⟨if_neg hx, by simp [hmem, hx]⟩

theorem Mirrors.answer (h : t.Mirrors told) (call : SubnetCall) :
    (t.answer call).1.Mirrors (told ++ (t.answer call).2) := by
  cases call with
  | subscribe committee slot => exact h.subscribe committee slot
  | onSlot slot => exact h.onSlot slot

/-- Any calls keep the network in step with the tracker. -/
theorem Mirrors.after (h : t.Mirrors told) (calls : List SubnetCall) :
    (t.after calls).Mirrors (told ++ t.messages calls) := by
  induction calls using List.reverseRecOn with
  | nil => simpa [SubnetTracker.after, messages] using h
  | append_singleton calls call ih =>
      rw [after_concat, messages_concat, ← List.append_assoc]
      exact ih.answer call

/-- The tracker of a number of subnets after some calls, and what the network has been told. -/
theorem mirrors_run (count : Nat) (calls : List SubnetCall) :
    ((create count).after calls).Mirrors ((create count).messages calls) := by
  simpa using (mirrors_create count).after calls

/-! ## Since a subnet was joined -/

/-- The slots that calls ask a subnet for. -/
def requested (t : SubnetTracker) (x : Subnet) (calls : List SubnetCall) : List Slot :=
  calls.filterMap fun
    | .subscribe committee slot => if t.subnetFor committee = x then some slot else none
    | .onSlot _ => none

theorem requested_concat_of_eq (h : t.subnetFor committee = x) (calls : List SubnetCall)
    (slot : Slot) :
    t.requested x (calls ++ [.subscribe committee slot]) = t.requested x calls ++ [slot] := by
  simp [requested, h]

theorem max?_concat {slots : List Slot} (h : slots.max? = some expiry) (slot : Slot) :
    (slots ++ [slot]).max? = some (max expiry slot) := by
  obtain ⟨hmem, hle⟩ := List.max?_eq_some_iff.1 h
  refine List.max?_eq_some_iff.2 ⟨?_, fun s hs => ?_⟩
  · rcases max_choice expiry slot with hmax | hmax <;> simp [hmax, hmem]
  · rcases List.mem_append.1 hs with hs | hs
    · exact le_max_of_le_left (hle s hs)
    · exact le_max_of_le_right (List.mem_singleton.1 hs).le

/-- The calls since a subnet was last joined, the one that joined it first. -/
def JoinedSince (t : SubnetTracker) (calls : List SubnetCall) (x : Subnet)
    (since : List SubnetCall) : Prop :=
  ∃ before joining later, calls = before ++ joining :: later ∧ since = joining :: later ∧
    ((t.after before).answer joining).2 = [.join x] ∧
    ∀ m ∈ (t.after (before ++ [joining])).messages later, m.subnet ≠ x

/-- A call that says nothing of a subnet leaves it joined. -/
theorem JoinedSince.concat {calls since : List SubnetCall} (h : t.JoinedSince calls x since)
    {call : SubnetCall} (hnone : ∀ m ∈ ((t.after calls).answer call).2, m.subnet ≠ x) :
    t.JoinedSince (calls ++ [call]) x (since ++ [call]) := by
  obtain ⟨before, joining, later, rfl, rfl, hjoin, hlater⟩ := h
  refine ⟨before, joining, later ++ [call], by simp, by simp, hjoin, fun m hm => ?_⟩
  rw [messages_concat, ← after_append, List.append_assoc, List.singleton_append] at hm
  rcases List.mem_append.1 hm with hm | hm
  · exact hlater m hm
  · exact hnone m hm

/-- Asking for a joined subnet tells the network nothing. -/
theorem subscribe_snd (t : SubnetTracker) (committee : CommitteeIndex) (slot : Slot) :
    (t.subscribe committee slot).2
      = if t.subnetFor committee ∈ t.active then [] else [.join (t.subnetFor committee)] := by
  cases hold : t.expiry? (t.subnetFor committee) with
  | some expiry => rw [subscribe_of_some hold, if_pos (mem_active_iff.2 ⟨expiry, hold⟩)]
  | none => rw [subscribe_of_none hold, if_neg (expiry?_eq_none_iff.1 hold)]

/-- Asking says nothing of a subnet that is joined already, nor of another one. -/
theorem subnet_ne_of_subscribe (h : x = t.subnetFor committee → x ∈ t.active) (slot : Slot) :
    ∀ m ∈ (t.subscribe committee slot).2, m.subnet ≠ x := by
  intro m hm
  rw [subscribe_snd] at hm
  split at hm
  · cases hm
  · next hout =>
      rw [List.mem_singleton.1 hm]
      rintro (rfl : t.subnetFor committee = x)
      exact hout (h rfl)

/-- A slot says nothing of a subnet that was asked for up to this slot or a later one. -/
theorem Sorted.subnet_ne_of_onSlot (hsorted : t.Sorted) (h : t.expiry? x = some expiry)
    (hslot : slot ≤ expiry) : ∀ m ∈ (t.onSlot slot).2, m.subnet ≠ x := by
  intro m hm
  obtain ⟨y, hy, rfl⟩ := List.mem_map.1 hm
  rintro (rfl : y = x)
  obtain ⟨old, hold, hlt⟩ := hsorted.mem_expired_iff.1 hy
  obtain rfl : old = expiry := Option.some.inj (hold.symm.trans h)
  exact absurd hslot (Nat.not_le.2 hlt)

/-- A joined subnet expires with the latest slot that it has been asked for since it was joined. -/
theorem exists_joinedSince (count : Nat) (calls : List SubnetCall)
    (h : ((create count).after calls).expiry? x = some expiry) :
    ∃ since, (create count).JoinedSince calls x since ∧
      ((create count).requested x since).max? = some expiry := by
  induction calls using List.reverseRecOn generalizing expiry with
  | nil => simp [after, create, expiry?] at h
  | append_singleton calls call ih =>
      have hmirrors := mirrors_run count calls
      rw [after_concat] at h
      cases call with
      | onSlot slot =>
          rw [answer, hmirrors.sorted.expiry?_onSlot, Option.filter_eq_some_iff] at h
          obtain ⟨hold, hslot⟩ := h
          obtain ⟨since, hsince, hmax⟩ := ih hold
          refine ⟨since ++ [.onSlot slot], hsince.concat ?_, by simpa [requested] using hmax⟩
          exact hmirrors.sorted.subnet_ne_of_onSlot hold (of_decide_eq_true hslot)
      | subscribe committee slot =>
          have hfor : ((create count).after calls).subnetFor committee
              = (create count).subnetFor committee := subnetFor_after ..
          rw [answer, expiry?_subscribe, hfor] at h
          by_cases hx : x = (create count).subnetFor committee
          · rw [if_pos hx] at h
            cases hold : ((create count).after calls).expiry? x with
            | none =>
                -- It is joined by this call.
                have hout : x ∉ ((create count).after calls).active := expiry?_eq_none_iff.1 hold
                have hslot : slot = expiry := by simpa [hold] using h
                refine ⟨[.subscribe committee slot],
                  ⟨calls, .subscribe committee slot, [], rfl, rfl, ?_, ?_⟩, ?_⟩
                · rw [answer, subscribe_snd, hfor, ← hx, if_neg hout]
                · simp [messages]
                · simp [requested, ← hx, hslot]
            | some old =>
                obtain ⟨since, hsince, hmax⟩ := ih hold
                have hslot : max old slot = expiry := by simpa [hold] using h
                refine ⟨since ++ [.subscribe committee slot], hsince.concat ?_, ?_⟩
                · exact subnet_ne_of_subscribe (fun _ => mem_active_iff.2 ⟨old, hold⟩) slot
                · rw [requested_concat_of_eq hx.symm, max?_concat hmax, hslot]
          · rw [if_neg hx] at h
            obtain ⟨since, hsince, hmax⟩ := ih h
            refine ⟨since ++ [.subscribe committee slot], hsince.concat ?_, ?_⟩
            · exact subnet_ne_of_subscribe (fun heq => absurd (heq.trans hfor) hx) slot
            · simpa [requested, Ne.symm hx] using hmax

/-- A subnet is kept for as long as it was asked for, while no slot after that begins. -/
theorem exists_expiry?_ge (count : Nat) (before later : List SubnetCall)
    (committee : CommitteeIndex) (slot : Slot)
    (h : ∀ begun, .onSlot begun ∈ later → begun ≤ slot) :
    ∃ expiry, ((create count).after (before ++ .subscribe committee slot :: later)).expiry?
      ((create count).subnetFor committee) = some expiry ∧ slot ≤ expiry := by
  induction later using List.reverseRecOn with
  | nil =>
      rw [after_concat, answer, expiry?_subscribe, subnetFor_after, if_pos rfl]
      refine ⟨_, rfl, ?_⟩
      cases ((create count).after before).expiry? ((create count).subnetFor committee) with
      | none => exact le_rfl
      | some expiry => exact le_max_right expiry slot
  | append_singleton later call ih =>
      obtain ⟨expiry, hexpiry, hle⟩ := ih fun begun hbegun =>
        h begun (List.mem_append_left _ hbegun)
      rw [← List.cons_append, ← List.append_assoc, after_concat]
      cases call with
      | subscribe other later =>
          rw [answer, expiry?_subscribe, hexpiry]
          split
          · exact ⟨_, rfl, hle.trans (le_max_left expiry later)⟩
          · exact ⟨expiry, rfl, hle⟩
      | onSlot begun =>
          have hbegun : begun ≤ slot := h begun (by simp)
          rw [answer, (mirrors_run ..).sorted.expiry?_onSlot, hexpiry]
          exact ⟨expiry, by simp [hbegun.trans hle], hle⟩

end SubnetTracker

/-! ## A node and its network -/

namespace BeaconNode

/-- The node after what its tracker is asked for or told. -/
def track (n : BeaconNode) : SubnetCall → BeaconNode
  | .subscribe committee slot => n.subscribe slot committee
  | .onSlot slot => n.expire slot

theorem foldl_track (n : BeaconNode) (calls : List SubnetCall) :
    (calls.foldl track n).subnets = n.subnets.after calls ∧
      (calls.foldl track n).joined
        = (n.subnets.messages calls).foldl Membership.applyTo n.joined := by
  induction calls generalizing n with
  | nil => exact ⟨rfl, rfl⟩
  | cons call calls ih =>
      have hsubnets : (n.track call).subnets = (n.subnets.answer call).1 := by
        cases call <;> rfl
      have hjoined : (n.track call).joined
          = (n.subnets.answer call).2.foldl Membership.applyTo n.joined := by
        cases call <;> rfl
      obtain ⟨hlast, htold⟩ := ih (n.track call)
      rw [hsubnets] at hlast htold
      refine ⟨hlast, ?_⟩
      rw [List.foldl_cons, htold, hjoined, SubnetTracker.messages, List.foldl_append]

end BeaconNode

namespace SubnetTracker

/-- **Membership mirrors the live requests.** Whatever is asked for and whichever slots begin, the
    network hears of each subnet that it is joined and left in turn; it has joined what is tracked,
    and so has the node that tracks it. A joined subnet expires with the latest slot it has been
    asked for since it was joined, and a slot leaves those that expire before it, the smaller ones
    first; so a subnet is kept at least until a slot after the one it was asked for begins. -/
theorem membership_mirrors_requests (count : Nat) (calls : List SubnetCall) :
    let t := (create count).after calls
    let told := (create count).messages calls
    (∀ x, ∃ n, told.filter (·.subnet = x) = Membership.alternating x n) ∧
    told.foldl Membership.applyTo [] = t.active ∧ t.active.Pairwise (· < ·) ∧
    (∀ n : BeaconNode,
      let tracked := calls.foldl BeaconNode.track { n with subnets := create count, joined := [] }
      tracked.subnets = t ∧ tracked.joined = t.active) ∧
    (∀ x, x ∈ t.active ↔ ∃ expiry, t.expiry? x = some expiry) ∧
    (∀ x expiry, t.expiry? x = some expiry →
      ∃ since, (create count).JoinedSince calls x since ∧
        ((create count).requested x since).max? = some expiry) ∧
    (∀ slot, ∃ left : List Subnet, (t.onSlot slot).2 = left.map .leave ∧ left.Pairwise (· < ·) ∧
      (∀ x, x ∈ left ↔ ∃ expiry, t.expiry? x = some expiry ∧ expiry < slot) ∧
      ∀ x, (t.onSlot slot).1.expiry? x = (t.expiry? x).filter (slot ≤ ·)) ∧
    ∀ before committee slot later, calls = before ++ .subscribe committee slot :: later →
      (∀ begun, .onSlot begun ∈ later → begun ≤ slot) → t.subnetFor committee ∈ t.active := by
  intro t told
  have hmirrors : t.Mirrors told := mirrors_run count calls
  refine ⟨fun x => ?_, hmirrors.joined, hmirrors.sorted.pairwise_active, fun n => ?_,
    fun x => mem_active_iff, fun x expiry h => exists_joinedSince count calls h, fun slot => ?_, ?_⟩
  · obtain ⟨n, hsame, -⟩ := hmirrors.alternates x
    exact ⟨n, hsame⟩
  · obtain ⟨hlast, htold⟩ :=
      BeaconNode.foldl_track { n with subnets := create count, joined := [] } calls
    exact ⟨hlast, htold.trans hmirrors.joined⟩
  · exact ⟨t.expired slot, rfl, hmirrors.sorted.pairwise_expired slot,
      fun x => hmirrors.sorted.mem_expired_iff, hmirrors.sorted.expiry?_onSlot slot⟩
  · rintro before committee slot later rfl hlater
    obtain ⟨expiry, hexpiry, -⟩ := exists_expiry?_ge count before later committee slot hlater
    rw [mem_active_iff, subnetFor_after]
    exact ⟨expiry, hexpiry⟩

/-- Committees 3 and 67 share a subnet, which is kept through slot 10, left at slot 11 and joined
    again. -/
theorem membership_mirrors_requests_shared :
    let calls : List SubnetCall :=
      [.subscribe 3 10, .subscribe 67 5, .onSlot 10, .onSlot 11, .subscribe 3 12, .subscribe 67 9]
    let t := (create 64).after calls
    (create 64).messages calls = [.join 3, .leave 3, .join 3] ∧
    ([.join 3, .leave 3, .join 3] : List Membership).foldl Membership.applyTo [] = t.active ∧
    (∃ since, (create 64).JoinedSince calls 3 since ∧
      ((create 64).requested 3 since).max? = some 12) ∧
    (∃ left : List Subnet, (t.onSlot 13).2 = left.map .leave ∧ 3 ∈ left) ∧
    t.subnetFor 3 ∈ t.active ∧
    (create 64).subnetFor 3 ∈ ((create 64).after (calls.take 3)).active := by
  intro calls t
  obtain ⟨-, hjoined, -, -, -, hsince, hslot, hstays⟩ := membership_mirrors_requests 64 calls
  have htold : (create 64).messages calls = [.join 3, .leave 3, .join 3] := by decide
  have hexpiry : t.expiry? 3 = some 12 := by decide
  refine ⟨htold, htold ▸ hjoined, hsince 3 12 hexpiry, ?_, ?_, ?_⟩
  · obtain ⟨left, hleft, -, hmem, -⟩ := hslot 13
    exact ⟨left, hleft, (hmem 3).2 ⟨12, hexpiry, by decide⟩⟩
  · exact hstays (calls.take 4) 3 12 [.subscribe 67 9] rfl (by simp)
  · obtain ⟨-, -, -, -, -, -, -, hstays⟩ := membership_mirrors_requests 64 (calls.take 3)
    refine hstays [] 3 10 [.subscribe 67 5, .onSlot 10] rfl fun begun hbegun => ?_
    have : begun = 10 := by simpa using hbegun
    exact this.le

end SubnetTracker

end Beacon
