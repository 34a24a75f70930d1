import Mathlib
import Beacon.Outcome

set_option autoImplicit false

/-! # How attempts end

Two ways to reason about `Attempt`. Forwards: a successful computation is taken apart by
`bind_eq_ok` and the `_eq_ok` lemmas of its parts, and a fold that succeeds keeps whatever each of
its steps keeps (`foldlM_ok`). Backwards: `Attempt.Within ℓ x` says that `x` gives a value or fails
in a way that the leeway `ℓ` grants: `Leeway.refusal` for "never faults", `Leeway.overflow` for
"ends well unless a number leaves the 64-bit range". It is closed under `bind`, `mapM` and change of
error type, and each primitive step satisfies it under its own side condition. -/

namespace Beacon

namespace Attempt

variable {ε ε' α β σ : Type}

/-! ## Taking successes apart -/

@[simp] theorem bind_eq_ok {x : Attempt ε α} {f : α → Attempt ε β} {b : β} :
    (x >>= f) = .ok b ↔ ∃ a, x = .ok a ∧ f a = .ok b := by
  cases x <;> simp [bind, Except.bind]

@[simp] theorem ok_bind (a : α) (f : α → Attempt ε β) : ((.ok a : Attempt ε α) >>= f) = f a := rfl

@[simp] theorem pure_eq_ok {a b : α} : (pure a : Attempt ε α) = .ok b ↔ a = b := by
  simp [pure, Except.pure]

@[simp] theorem reject_ne_ok {cause : ε} {a : α} :
    (reject cause : Attempt ε α) = .ok a ↔ False := by
  simp [reject]

@[simp] theorem liftM_eq_ok {x : Checked α} {a : α} :
    (liftM x : Attempt ε α) = .ok a ↔ x = .ok a := by
  rw [liftM_eq_ofChecked, ofChecked_eq_ok]

@[simp] theorem liftM_ok (a : α) : (liftM (.ok a : Checked α) : Attempt ε α) = .ok a := rfl

/-- What follows on a computation only has to agree on its values. -/
theorem bind_congr_ok {x : Attempt ε α} {f g : α → Attempt ε β}
    (h : ∀ a, x = .ok a → f a = g a) : (x >>= f) = (x >>= g) := by
  cases x with
  | ok a => exact h a rfl
  | error => rfl

theorem exists_ok_of_isOk {x : Attempt ε α} (h : x.isOk = true) : ∃ a, x = .ok a := by
  cases x with
  | ok a => exact ⟨a, rfl⟩
  | error e => cases h

/-- What has been worked out about the value of an attempt holds of it. -/
theorem exists_ok_of_toOption {x : Attempt ε α} {f : α → β} {b : β}
    (h : x.toOption.map f = some b) : ∃ a, x = .ok a ∧ f a = b := by
  cases x with
  | ok a => exact ⟨a, rfl, Option.some.inj h⟩
  | error e => cases h

/-- A fold that succeeds carries `P` from the whole list to the empty one when each step that
    succeeds carries it from a list to its tail. -/
theorem foldlM_ok {f : σ → α → Attempt ε σ} {P : List α → σ → Prop}
    (step : ∀ x xs s s', P (x :: xs) s → f s x = .ok s' → P xs s') :
    ∀ (xs : List α) (s s' : σ), P xs s → xs.foldlM f s = .ok s' → P [] s' := by
  intro xs
  induction xs with
  | nil =>
      intro s s' hs h
      rw [List.foldlM_nil, pure_eq_ok] at h
      exact h ▸ hs
  | cons x xs ih =>
      intro s s' hs h
      rw [List.foldlM_cons, bind_eq_ok] at h
      obtain ⟨t, ht, htail⟩ := h
      exact ih t s' (step x xs s t hs ht) htail

/-- A property of states that every step of a fold keeps. -/
theorem foldlM_invariant {f : σ → α → Attempt ε σ} {P : σ → Prop} {xs : List α} {s s' : σ}
    (step : ∀ x s s', P s → f s x = .ok s' → P s') (hs : P s) (h : xs.foldlM f s = .ok s') :
    P s' :=
  foldlM_ok (P := fun _ => P) (fun x _ s s' => step x s s') xs s s' hs h

/-- What each step that succeeds carries from the elements before it to those up to its own, a fold
    that succeeds carries to the whole list. -/
theorem foldlM_done {f : σ → α → Attempt ε σ} {P : List α → σ → Prop} {xs : List α} {s s' : σ}
    (step : ∀ done x rest s s', done ++ x :: rest = xs → P done s → f s x = .ok s' →
      P (done ++ [x]) s')
    (hs : P [] s) (h : xs.foldlM f s = .ok s') : P xs s' := by
  have hall := foldlM_ok (P := fun rest s => ∃ done, done ++ rest = xs ∧ P done s)
    (fun x rest s s' hs hx => by
      obtain ⟨done, hdone, hs⟩ := hs
      exact ⟨done ++ [x], by simpa using hdone, step done x rest s s' hdone hs hx⟩)
    xs s s' ⟨[], rfl, hs⟩ h
  obtain ⟨done, hdone, hs'⟩ := hall
  rw [List.append_nil] at hdone
  exact hdone ▸ hs'

/-- Each element of a successful `mapM` is the value at the same position. -/
theorem mapM_eq_ok {f : α → Attempt ε β} {xs : List α} {ys : List β} (h : xs.mapM f = .ok ys) :
    List.Forall₂ (fun x y => f x = .ok y) xs ys := by
  induction xs generalizing ys with
  | nil =>
      rw [List.mapM_nil, pure_eq_ok] at h
      exact h ▸ .nil
  | cons x xs ih =>
      simp only [List.mapM_cons, bind_eq_ok, pure_eq_ok] at h
      obtain ⟨y, hy, ys', hys, rfl⟩ := h
      exact .cons hy (ih hys)

theorem mapM_congr {f g : α → Attempt ε β} {xs : List α} (h : ∀ x ∈ xs, f x = g x) :
    xs.mapM f = xs.mapM g := by
  induction xs with
  | nil => rfl
  | cons x xs ih =>
      obtain ⟨hx, hxs⟩ := List.forall_mem_cons.1 h
      rw [List.mapM_cons, List.mapM_cons, hx, ih hxs]

/-- Where the value of every element is known, so is the list of values. -/
theorem mapM_eq_map {f : α → Attempt ε β} {g : α → β} {xs : List α}
    (h : ∀ x ∈ xs, f x = .ok (g x)) : xs.mapM f = .ok (xs.map g) := by
  induction xs with
  | nil => rfl
  | cons x xs ih =>
      obtain ⟨hx, hxs⟩ := List.forall_mem_cons.1 h
      rw [List.mapM_cons, hx, ok_bind, ih hxs]
      rfl

/-- Where every element has a value, so has the list. -/
theorem exists_mapM {f : α → Attempt ε β} {xs : List α} (h : ∀ x ∈ xs, ∃ y, f x = .ok y) :
    ∃ ys, xs.mapM f = .ok ys := by
  induction xs with
  | nil => exact ⟨[], rfl⟩
  | cons x xs ih =>
      obtain ⟨⟨y, hy⟩, hxs⟩ := List.forall_mem_cons.1 h
      obtain ⟨ys, hys⟩ := ih hxs
      refine ⟨y :: ys, ?_⟩
      rw [List.mapM_cons, hy, ok_bind, hys, ok_bind]
      rfl

/-- What can be read off each value is that of the elements. -/
theorem map_of_mapM {γ : Type} {f : α → Attempt ε β} {g : β → γ} {k : α → γ} {xs : List α}
    {ys : List β} (hread : ∀ x y, f x = .ok y → g y = k x) (h : xs.mapM f = .ok ys) :
    ys.map g = xs.map k := by
  have hall := mapM_eq_ok h
  clear h
  induction hall with
  | nil => rfl
  | cons hy _ ih => rw [List.map_cons, List.map_cons, hread _ _ hy, ih]

theorem exists_of_mem_mapM {f : α → Attempt ε β} {xs : List α} {ys : List β} {y : β}
    (h : xs.mapM f = .ok ys) (hy : y ∈ ys) : ∃ x ∈ xs, f x = .ok y := by
  have hall := mapM_eq_ok h
  clear h
  induction hall with
  | nil => cases hy
  | cons hx _ ih =>
      rcases List.mem_cons.1 hy with rfl | hy
      · exact ⟨_, List.mem_cons_self .., hx⟩
      · obtain ⟨x, hmem, hx⟩ := ih hy
        exact ⟨x, List.mem_cons_of_mem _ hmem, hx⟩

/-- And each element has its value there. -/
theorem exists_mem_of_mapM {f : α → Attempt ε β} {xs : List α} {ys : List β} {x : α}
    (h : xs.mapM f = .ok ys) (hx : x ∈ xs) : ∃ y ∈ ys, f x = .ok y := by
  have hall := mapM_eq_ok h
  clear h
  induction hall with
  | nil => cases hx
  | cons hy _ ih =>
      rcases List.mem_cons.1 hx with rfl | hx
      · exact ⟨_, List.mem_cons_self .., hy⟩
      · obtain ⟨y, hmem, hy⟩ := ih hx
        exact ⟨y, List.mem_cons_of_mem _ hmem, hy⟩

/-! ## Taking rejections and faults apart -/

theorem bind_eq_rejected {x : Attempt ε α} {f : α → Attempt ε β} {cause : ε} :
    (x >>= f) = .error (.rejected cause) ↔
      x = .error (.rejected cause) ∨ ∃ a, x = .ok a ∧ f a = .error (.rejected cause) := by
  cases x <;> simp [bind, Except.bind]

theorem widen_eq_rejected {f : ε → ε'} {x : Attempt ε α} {cause : ε'} :
    widen f x = .error (.rejected cause) ↔
      ∃ inner, x = .error (.rejected inner) ∧ f inner = cause := by
  rcases x with (_ | _) | _ <;> simp [widen]

theorem bind_eq_fault {x : Attempt ε α} {f : α → Attempt ε β} {stop : Fault} :
    (x >>= f) = .error (.fault stop) ↔
      x = .error (.fault stop) ∨ ∃ a, x = .ok a ∧ f a = .error (.fault stop) := by
  cases x <;> simp [bind, Except.bind]

theorem liftM_eq_fault {x : Checked α} {stop : Fault} :
    (liftM x : Attempt ε α) = .error (.fault stop) ↔ x = .error (.fault stop) := by
  rcases x with (f | _) | _
  · exact f.elim
  all_goals simp [liftM_eq_ofChecked, ofChecked]

theorem require_ne_fault {p : Prop} [Decidable p] {cause : ε} {stop : Fault} :
    require p cause ≠ .error (.fault stop) := by
  unfold require
  split <;> simp [reject]

theorem require_eq_rejected {p : Prop} [Decidable p] {cause cause' : ε} :
    require p cause = .error (.rejected cause') ↔ ¬ p ∧ cause = cause' := by
  unfold require
  split <;> simp_all [reject]

/-! ## Leeway -/

end Attempt

/-- How a computation may fail: whether it may reject, and with which faults it may stop. -/
structure Leeway where
  rejections : Prop
  faults : Fault → Prop

/-- Any rejection, but no fault. -/
def Leeway.refusal : Leeway := ⟨True, fun _ => False⟩

/-- No failure but that of a number that leaves the 64-bit range. -/
def Leeway.overflow : Leeway := ⟨False, (· = .overflow)⟩

/-- Any rejection, and the fault of a number that leaves the 64-bit range. -/
def Leeway.refusalOrOverflow : Leeway := ⟨True, (· = .overflow)⟩

/-- No failure at all. -/
def Leeway.none : Leeway := ⟨False, fun _ => False⟩

namespace Attempt

variable {ε ε' α β σ : Type} {ℓ : Leeway}

/-- The attempt gives a value, or fails as the leeway allows. -/
def Within (ℓ : Leeway) : Attempt ε α → Prop
  | .ok _ => True
  | .error (.rejected _) => ℓ.rejections
  | .error (.fault f) => ℓ.faults f

theorem Within.bind {x : Attempt ε α} {f : α → Attempt ε β} (hx : x.Within ℓ)
    (hf : ∀ a, x = .ok a → (f a).Within ℓ) : (x >>= f).Within ℓ := by
  cases x with
  | ok a => exact hf a rfl
  | error e => cases e <;> exact hx

theorem Within.ite {p : Prop} [Decidable p] {x y : Attempt ε α} (hx : x.Within ℓ)
    (hy : y.Within ℓ) : (if p then x else y).Within ℓ := by
  split <;> assumption

theorem within_require {p : Prop} [Decidable p] {cause : ε} (h : ℓ.rejections ∨ p) :
    Within ℓ (require p cause) := by
  unfold require
  split
  · trivial
  · next hp => exact h.resolve_right hp

/-- A condition that is not met is a reason to refuse, never a fault. -/
theorem refusal_require {p : Prop} [Decidable p] {cause : ε} :
    Within .refusal (require p cause) :=
  within_require (Or.inl trivial)

theorem Within.widen {x : Attempt ε α} (f : ε → ε') (hx : x.Within ℓ) : (widen f x).Within ℓ := by
  rcases x with (_ | _) | _ <;> exact hx

theorem Within.ofChecked {x : Checked α} (hx : x.Within ℓ) :
    Within ℓ (ofChecked x : Attempt ε α) := by
  rcases x with (e | _) | _
  · exact e.elim
  all_goals exact hx

theorem Within.lift {x : Checked α} (hx : x.Within ℓ) : Within ℓ (liftM x : Attempt ε α) :=
  hx.ofChecked

theorem Within.mapM {f : α → Attempt ε β} {xs : List α} (h : ∀ x ∈ xs, (f x).Within ℓ) :
    (xs.mapM f).Within ℓ := by
  induction xs with
  | nil => trivial
  | cons x xs ih =>
      rw [List.mapM_cons]
      refine (h x (List.mem_cons_self ..)).bind fun y _ => ?_
      exact (ih fun z hz => h z (List.mem_cons_of_mem _ hz)).bind fun _ _ => trivial

/-- A fold stays within a leeway when each of its steps does, and when `P` goes on to hold where the
    next one is taken. -/
theorem Within.foldlM {f : σ → α → Attempt ε σ} {P : List α → σ → Prop}
    (step : ∀ x xs s, P (x :: xs) s → (f s x).Within ℓ ∧ ∀ s', f s x = .ok s' → P xs s') :
    ∀ (xs : List α) (s : σ), P xs s → (xs.foldlM f s).Within ℓ := by
  intro xs
  induction xs with
  | nil => exact fun s _ => trivial
  | cons x xs ih =>
      intro s hs
      obtain ⟨hwithin, hnext⟩ := step x xs s hs
      rw [List.foldlM_cons]
      exact hwithin.bind fun s' hs' => ih s' (hnext s' hs')

theorem Within.filterAttempt {p : α → Attempt ε Bool} {xs : List α}
    (h : ∀ x ∈ xs, (p x).Within ℓ) : (filterAttempt p xs).Within ℓ := by
  induction xs with
  | nil => trivial
  | cons x xs ih =>
      refine (h x (List.mem_cons_self ..)).bind fun keep _ => ?_
      exact (ih fun z hz => h z (List.mem_cons_of_mem _ hz)).bind fun _ _ => trivial

/-- Without leeway there is a value. -/
theorem Within.exists_ok {x : Attempt ε α} (h : x.Within .none) : ∃ a, x = .ok a := by
  rcases x with (_ | _) | a
  · exact h.elim
  · exact h.elim
  · exact ⟨a, rfl⟩

/-- A refusal is no fault. -/
theorem within_refusal_iff {x : Attempt ε α} :
    x.Within .refusal ↔ ∀ stop, x ≠ .error (.fault stop) := by
  rcases x with (_ | stop) | a
  · exact iff_of_true trivial fun _ h => by cases h
  · exact iff_of_false (fun h => h) fun h => h stop rfl
  · exact iff_of_true trivial fun _ h => by cases h

/-- With leeway for overflows there is a value, or the attempt stopped with an overflow. -/
theorem Within.ok_or_overflow {x : Attempt ε α} (h : x.Within .overflow) :
    (∃ a, x = .ok a) ∨ x = .error (.fault .overflow) := by
  rcases x with (_ | f) | a
  · exact h.elim
  · exact Or.inr (by rw [show f = Fault.overflow from h])
  · exact Or.inl ⟨a, rfl⟩

end Attempt

/-! ## Words -/

namespace Word

variable {ℓ : Leeway} {a b : Nat}

theorem add_within (h : ℓ.faults .overflow ∨ a + b < limit) : (add a b).Within ℓ := by
  unfold add
  split
  · trivial
  · next hlt => exact h.resolve_right hlt

theorem mul_within (h : ℓ.faults .overflow ∨ a * b < limit) : (mul a b).Within ℓ := by
  unfold mul
  split
  · trivial
  · next hlt => exact h.resolve_right hlt

theorem require_within (h : ℓ.faults .overflow ∨ a < limit) : (require a).Within ℓ := by
  unfold require
  split
  · trivial
  · next hlt => exact h.resolve_right hlt

@[simp] theorem require_eq_ok {u : Unit} : require a = .ok u ↔ a < limit := by
  unfold require
  split <;> simp_all [Attempt.fault]

theorem mul_eq_fault {stop : Fault} :
    mul a b = .error (.fault stop) ↔ limit ≤ a * b ∧ stop = .overflow := by
  unfold mul
  split <;> simp_all [Attempt.fault, eq_comm]

theorem mulSat_of_lt (h : a * b < limit) : mulSat a b = a * b := by
  simp only [mulSat, max, limit] at *
  omega

end Word

end Beacon
