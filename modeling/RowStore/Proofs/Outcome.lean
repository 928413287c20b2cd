import RowStore.Proofs.Action

/-!
# What becomes of an action

* `Action.InRange` : an action never runs past an end, so that it fails for a cause only;
  `InRange.bind`, `InRange.within` and so on take such actions together;
* `Action.InRangeFrom` : it does not do so from a certain state; `InRangeFrom.of_bind`,
  `InRangeFrom.of_discard` and so on say so of its steps;
* `Action.Meets` : from where one condition holds, an action ends where another holds of what it yields, or
  a third of its fault; `Meets.bind`, `Meets.within`, `Meets.forM` and so on;
* `Action.Safe` : an action does not leave a condition, and fails with faults of a kind only.
-/

namespace RowStore

theorem Fault.error_ne_outOfRange (cause : StoreError) : Fault.error cause ≠ .outOfRange := nofun

namespace Action

variable {σ τ α β : Type}

/-! ## Actions that never run past an end -/

/-- The action never reads or writes past an end: where it fails, it is refused for a cause. -/
def InRange (act : Action σ α) : Prop := ∀ s t, act s ≠ .error .outOfRange t

section InRange

theorem inRange_pure (a : α) : InRange (pure a : Action σ α) := fun _ _ h => nomatch h

theorem inRange_refuse (cause : StoreError) : InRange (refuse cause : Action σ α) :=
  fun _ _ h => nomatch h

theorem inRange_modify (f : σ → σ) : InRange (modify f : Action σ Unit) := fun _ _ h => nomatch h

theorem inRange_ofExcept (x : Except StoreError α) : InRange (ofExcept x : Action σ α) := by
  cases x with
  | ok a => exact inRange_pure a
  | error cause => exact inRange_refuse cause

theorem InRange.bind {x : Action σ α} {f : α → Action σ β} (hx : InRange x)
    (hf : ∀ a, InRange (f a)) : InRange (x >>= f) := by
  intro s t h
  rcases bind_eq_error.1 h with hx' | ⟨a, u, -, hf'⟩
  · exact hx s t hx'
  · exact hf a u t hf'

theorem InRange.get_bind {f : σ → Action σ β} (hf : ∀ s, InRange (f s)) : InRange (get >>= f) :=
  fun s => hf s s

theorem InRange.set_bind {t : σ} {f : PUnit → Action σ β} (hf : ∀ u, InRange (f u)) :
    InRange (set t >>= f) := fun _ => hf ⟨⟩ t

theorem InRange.ite {p : Prop} [Decidable p] {x y : Action σ α} (hx : InRange x) (hy : InRange y) :
    InRange (if p then x else y) := by
  split
  · exact hx
  · exact hy

theorem InRange.discard {x : Action σ α} (hx : InRange x) : InRange (Functor.discard x) :=
  hx.bind fun _ => inRange_pure ()

theorem InRange.forM {f : α → Action σ Unit} (hf : ∀ a, InRange (f a)) (xs : List α) :
    InRange (xs.forM f) := by
  induction xs with
  | nil => exact inRange_pure ()
  | cons x xs ih => exact (hf x).bind fun _ => ih

theorem InRange.within {part : τ → σ} {put : σ → τ → τ} {act : Action σ α} (h : InRange act) :
    InRange (act.within part put) := by
  intro t t' ht
  cases hr : act (part t) with
  | ok a s =>
    rw [within_of_ok hr] at ht
    cases ht
  | error fault s =>
    rw [within_of_error hr] at ht
    cases ht
    exact h (part t) s hr

theorem InRange.cause {act : Action σ α} (h : InRange act) {s t : σ} {fault : Fault}
    (he : act s = .error fault t) : ∃ cause, fault = .error cause := by
  cases fault with
  | error cause => exact ⟨cause, rfl⟩
  | outOfRange => exact absurd he (h s t)

end InRange

/-! ## Actions that do not run past an end from a state -/

def InRangeFrom (act : Action σ α) (s : σ) : Prop := ∀ t, act s ≠ .error .outOfRange t

section InRangeFrom
variable {act : Action σ α} {s t : σ}

theorem inRangeFrom_of_ok {a : α} (h : act s = .ok a t) : act.InRangeFrom s :=
  fun _ he => nomatch h.symm.trans he

theorem inRangeFrom_of_refused {cause : StoreError} (h : act s = .error (.error cause) t) :
    act.InRangeFrom s := fun _ he => nomatch h.symm.trans he

theorem InRangeFrom.congr {act' : Action τ β} {s' : τ} (h : act.InRangeFrom s)
    (he : ∀ t', act' s' = .error .outOfRange t' → ∃ t, act s = .error .outOfRange t) :
    act'.InRangeFrom s' := by
  intro t' ht'
  obtain ⟨t, ht⟩ := he t' ht'
  exact h t ht

theorem InRangeFrom.of_bind {x : Action σ α} {f : α → Action σ β} (h : (x >>= f).InRangeFrom s) :
    x.InRangeFrom s := h.congr fun t ht => ⟨t, bind_of_error ht⟩

theorem InRangeFrom.of_bind_ok {x : Action σ α} {f : α → Action σ β} {a : α}
    (h : (x >>= f).InRangeFrom s) (hx : x s = .ok a t) : (f a).InRangeFrom t :=
  h.congr fun t' ht' => ⟨t', (bind_of_ok hx).trans ht'⟩

theorem InRangeFrom.of_discard (h : (Functor.discard act).InRangeFrom s) : act.InRangeFrom s :=
  h.congr fun t ht => ⟨t, discard_eq_error.2 ht⟩

end InRangeFrom

/-! ## What an action yields, and how it fails -/

/-- From where `P` holds, the action ends where `Q` holds of what it yields, or `E` of its fault. -/
def Meets (P : σ → Prop) (act : Action σ α) (Q : α → σ → Prop) (E : Fault → σ → Prop) : Prop :=
  ∀ s, P s → match act s with
    | .ok a t => Q a t
    | .error fault t => E fault t

section Meets
variable {P P' : σ → Prop} {Q Q' : α → σ → Prop} {R : β → σ → Prop} {E E' : Fault → σ → Prop}
  {act : Action σ α} {s t : σ}

theorem Meets.of_ok (h : Meets P act Q E) (hs : P s) {a : α} (he : act s = .ok a t) : Q a t := by
  have hq := h s hs
  rwa [he] at hq

theorem Meets.of_error (h : Meets P act Q E) (hs : P s) {fault : Fault}
    (he : act s = .error fault t) : E fault t := by
  have hq := h s hs
  rwa [he] at hq

theorem meets_iff : Meets P act Q E ↔ ∀ s, P s → (∀ a t, act s = .ok a t → Q a t) ∧
    ∀ fault t, act s = .error fault t → E fault t := by
  constructor
  · exact fun h s hs => ⟨fun a t => h.of_ok hs, fun fault t => h.of_error hs⟩
  · intro h s hs
    cases he : act s with
    | ok a t => exact (h s hs).1 a t he
    | error fault t => exact (h s hs).2 fault t he

theorem meets_trivial (hQ : ∀ a s, Q a s) (hE : ∀ fault s, E fault s) : Meets P act Q E :=
  meets_iff.2 fun _ _ => ⟨fun a t _ => hQ a t, fun fault t _ => hE fault t⟩

theorem meets_pure {a : α} (h : ∀ s, P s → Q a s) : Meets P (pure a) Q E := h

theorem meets_throw {fault : Fault} (h : ∀ s, P s → E fault s) :
    Meets P (throw fault : Action σ α) Q E := h

theorem meets_refuse {cause : StoreError} (h : ∀ s, P s → E (.error cause) s) :
    Meets P (refuse cause : Action σ α) Q E := h

theorem meets_modify {f : σ → σ} {Q : Unit → σ → Prop} (h : ∀ s, P s → Q () (f s)) :
    Meets P (modify f : Action σ Unit) Q E := h

theorem meets_ofExcept {x : Except StoreError α} (hok : ∀ a s, x = .ok a → P s → Q a s)
    (herror : ∀ cause s, P s → E (.error cause) s) : Meets P (ofExcept x) Q E := by
  cases x with
  | ok a => exact meets_pure fun s hs => hok a s rfl hs
  | error cause => exact meets_refuse fun s hs => herror cause s hs

theorem Meets.bind {x : Action σ α} {f : α → Action σ β} (hx : Meets P x Q E)
    (hf : ∀ a, Meets (Q a) (f a) R E) : Meets P (x >>= f) R E := by
  refine meets_iff.2 fun s hs => ⟨fun b t h => ?_, fun fault t h => ?_⟩
  · obtain ⟨a, s', hx', hf'⟩ := bind_eq_ok.1 h
    exact (hf a).of_ok (hx.of_ok hs hx') hf'
  · rcases bind_eq_error.1 h with hx' | ⟨a, s', hx', hf'⟩
    · exact hx.of_error hs hx'
    · exact (hf a).of_error (hx.of_ok hs hx') hf'

theorem Meets.get_bind {f : σ → Action σ β} (hf : ∀ s, P s → Meets (· = s) (f s) R E) :
    Meets P (get >>= f) R E := fun s hs => hf s hs s rfl

theorem meets_look (f : σ → α) : Meets P (do return f (← get)) (fun _ => P) E := fun _ hs => hs

theorem Meets.ite {p : Prop} [Decidable p] {x y : Action σ α} (hx : p → Meets P x Q E)
    (hy : ¬ p → Meets P y Q E) : Meets P (if p then x else y) Q E := by
  split
  · exact hx ‹_›
  · exact hy ‹_›

/-- A condition that says more may be asked for from the start. -/
theorem Meets.pre (h : Meets P act Q E) (hP : ∀ s, P' s → P s) : Meets P' act Q E :=
  fun s hs => h s (hP s hs)

/-- Less may be said of what is yielded. -/
theorem Meets.post (h : Meets P act Q E) (hQ : ∀ a s, Q a s → Q' a s) : Meets P act Q' E :=
  meets_iff.2 fun _ hs => ⟨fun a t he => hQ a t (h.of_ok hs he), fun _ _ he => h.of_error hs he⟩

/-- Less may be said of a fault. -/
theorem Meets.fault (h : Meets P act Q E) (hE : ∀ fault s, E fault s → E' fault s) : Meets P act Q E' :=
  meets_iff.2 fun _ hs => ⟨fun _ _ he => h.of_ok hs he, fun fault t he => hE fault t (h.of_error hs he)⟩

/-- What does not depend on the state is known from the start. -/
theorem Meets.of_and {p : Prop} (h : p → Meets P act Q E) : Meets (fun s => P s ∧ p) act Q E :=
  fun s hs => h hs.2 s hs.1

theorem Meets.forM {f : α → Action σ Unit} {xs : List α}
    (hf : ∀ x ∈ xs, Meets P (f x) (fun _ => P) E) : Meets P (xs.forM f) (fun _ => P) E := by
  induction xs with
  | nil => exact meets_pure fun _ hs => hs
  | cons x xs ih =>
    exact (hf x List.mem_cons_self).bind fun _ => ih fun y hy => hf y (List.mem_cons_of_mem x hy)

/-- An action on a part that the conditions look at. -/
theorem Meets.within {part : τ → σ} {put : σ → τ → τ} {O : τ → Prop} {Q' : α → τ → Prop}
    {E' : Fault → τ → Prop} (h : Meets P act Q E) (hpart : ∀ t, O t → P (part t))
    (hQ : ∀ t a s, O t → Q a s → Q' a (put s t))
    (hE : ∀ t fault s, O t → E fault s → E' fault (put s t)) :
    Meets O (act.within part put) Q' E' := by
  intro t ht
  cases hr : act (part t) with
  | ok a s =>
    rw [within_of_ok hr]
    exact hQ t a s ht (h.of_ok (hpart t ht) hr)
  | error fault s =>
    rw [within_of_error hr]
    exact hE t fault s ht (h.of_error (hpart t ht) hr)

end Meets

/-! ## Actions that do not leave a condition -/

/-- An action that starts where the condition holds ends where it holds, and fails with such faults
only. -/
abbrev Safe (P : σ → Prop) (fine : Fault → Prop) (act : Action σ α) : Prop :=
  Meets P act (fun _ => P) fun fault s => P s ∧ fine fault

section Safe
variable {P : σ → Prop} {fine : Fault → Prop} {act : Action σ α}

theorem Stays.safe_of_faults (h : Stays P act)
    (hf : ∀ s fault t, P s → act s = .error fault t → fine fault) : Safe P fine act :=
  meets_iff.2 fun s hs =>
    ⟨fun _ _ he => h.of_ok hs he, fun fault t he => ⟨h.of_error hs he, hf s fault t hs he⟩⟩

theorem Stays.safe (h : Stays P act) (hr : InRange act) (hf : ∀ cause, fine (.error cause)) :
    Safe P fine act := by
  refine h.safe_of_faults fun s fault t _ he => ?_
  obtain ⟨cause, rfl⟩ := hr.cause he
  exact hf cause

theorem InRange.safe (h : InRange act) :
    Safe (fun _ => True) (· ≠ .outOfRange) act :=
  Stays.safe (fun _ _ => trivial) h Fault.error_ne_outOfRange

/-- Where any fault may come, all that counts is where the action ends. -/
theorem Stays.safe_of_any (h : Stays P act) : Safe P (fun _ => True) act :=
  h.safe_of_faults fun _ _ _ _ _ => trivial

theorem Safe.final (h : Safe P fine act) {s : σ} (hs : P s) : P (final act s) := by
  cases he : act s with
  | ok a t =>
    rw [final_of_ok he]
    exact h.of_ok hs he
  | error fault t =>
    rw [final_of_error he]
    exact (h.of_error hs he).1

theorem safe_pure (a : α) : Safe P fine (pure a : Action σ α) := fun _ hs => hs

theorem safe_refuse (hf : ∀ cause, fine (.error cause)) (cause : StoreError) :
    Safe P fine (refuse cause : Action σ α) := fun _ hs => ⟨hs, hf cause⟩

theorem safe_ofExcept (hf : ∀ cause, fine (.error cause)) (x : Except StoreError α) :
    Safe P fine (ofExcept x : Action σ α) :=
  meets_ofExcept (fun _ _ _ hs => hs) fun cause _ hs => ⟨hs, hf cause⟩

theorem Safe.bind {x : Action σ α} {f : α → Action σ β} (hx : Safe P fine x)
    (hf : ∀ a, Safe P fine (f a)) : Safe P fine (x >>= f) := Meets.bind hx hf

theorem Safe.ite {p : Prop} [Decidable p] {x y : Action σ α} (hx : Safe P fine x) (hy : Safe P fine y) :
    Safe P fine (if p then x else y) := Meets.ite (fun _ => hx) fun _ => hy

theorem Safe.discard (h : Safe P fine act) : Safe P fine (Functor.discard act) :=
  Meets.bind h fun _ => meets_pure fun _ hs => hs

end Safe

end Action

end RowStore
