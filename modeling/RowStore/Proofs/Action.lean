import RowStore.Action

/-!
# How actions run

* `bind_of_ok`, `bind_of_error`, `bind_eq_ok`, `bind_eq_error` : a step and what follows it;
* `discard_eq_ok`, `discard_eq_error` : a step without its result;
* `within_of_ok`, `within_of_error`, `within_bind` : steps on a part of the state;
* `Action.final`, `Action.result` : the state in which an action ends, and what comes of it;
* `Action.Keeps` : an action changes nothing that a view of the state shows; `Keeps.bind`,
  `Keeps.within` and so on take such actions together;
* `Action.Stays` : an action that starts where a predicate holds ends where it holds.
-/

namespace RowStore.Action

variable {σ τ α β γ : Type}

/-! ## One step and the next -/

section Bind
variable {x : Action σ α} {f : α → Action σ β} {s t : σ} {a : α} {b : β} {fault : Fault}

theorem bind_of_ok (h : x s = .ok a t) : (x >>= f) s = f a t := by
  change EStateM.bind x f s = _
  unfold EStateM.bind
  rw [h]

theorem bind_of_error (h : x s = .error fault t) : (x >>= f) s = .error fault t := by
  change EStateM.bind x f s = _
  unfold EStateM.bind
  rw [h]

theorem bind_eq_ok : (x >>= f) s = .ok b t ↔ ∃ a u, x s = .ok a u ∧ f a u = .ok b t := by
  cases hx : x s with
  | ok a u =>
    rw [bind_of_ok hx]
    constructor
    · intro h
      exact ⟨a, u, rfl, h⟩
    · rintro ⟨a', u', he, h⟩
      cases he
      exact h
  | error e u =>
    rw [bind_of_error hx]
    constructor
    · intro h
      cases h
    · rintro ⟨a', u', he, -⟩
      cases he

theorem bind_eq_error : (x >>= f) s = .error fault t ↔
    x s = .error fault t ∨ ∃ a u, x s = .ok a u ∧ f a u = .error fault t := by
  cases hx : x s with
  | ok a u =>
    rw [bind_of_ok hx]
    constructor
    · intro h
      exact Or.inr ⟨a, u, rfl, h⟩
    · rintro (he | ⟨a', u', he, h⟩)
      · cases he
      · cases he
        exact h
  | error e u =>
    rw [bind_of_error hx]
    constructor
    · intro h
      cases h
      exact Or.inl rfl
    · rintro (he | ⟨a', u', he, -⟩)
      · cases he
        rfl
      · cases he

theorem discard_eq (x : Action σ α) : Functor.discard x = x >>= fun _ => pure () := rfl

theorem discard_eq_ok : Functor.discard x s = .ok () t ↔ ∃ a, x s = .ok a t := by
  rw [discard_eq, bind_eq_ok]
  constructor
  · rintro ⟨a, _, h, he⟩
    cases he
    exact ⟨a, h⟩
  · rintro ⟨a, h⟩
    exact ⟨a, t, h, rfl⟩

theorem discard_eq_error : Functor.discard x s = .error fault t ↔ x s = .error fault t := by
  rw [discard_eq, bind_eq_error]
  constructor
  · rintro (h | ⟨_, _, -, he⟩)
    · exact h
    · cases he
  · exact Or.inl

end Bind

theorem get_bind (f : σ → Action σ β) (s : σ) : ((get : Action σ σ) >>= f) s = f s s := rfl

/-- A look at the state that does not matter. -/
theorem get_bind_const (x : Action σ β) : ((get : Action σ σ) >>= fun _ => x) = x := rfl

theorem ite_bind {p : Prop} [Decidable p] (x y : Action σ α) (f : α → Action σ β) :
    (if p then x else y) >>= f = if p then x >>= f else y >>= f := apply_ite (· >>= f) p x y

theorem modify_bind (g : σ → σ) (f : PUnit → Action σ β) (s : σ) :
    ((modify g : Action σ PUnit) >>= f) s = f ⟨⟩ (g s) := rfl

/-! ## Parts of a state -/

section Within
variable {part : τ → σ} {put : σ → τ → τ} {act : Action σ α} {t : τ} {s : σ} {a : α} {fault : Fault}

theorem within_of_ok (h : act (part t) = .ok a s) :
    act.within part put t = .ok a (put s t) := by
  unfold Action.within
  rw [h]

theorem within_of_error (h : act (part t) = .error fault s) :
    act.within part put t = .error fault (put s t) := by
  unfold Action.within
  rw [h]

theorem within_eq_ok {t' : τ} : act.within part put t = .ok a t' ↔
    ∃ s, act (part t) = .ok a s ∧ put s t = t' := by
  unfold Action.within
  cases act (part t) with
  | ok x s =>
    constructor
    · intro h
      cases h
      exact ⟨s, rfl, rfl⟩
    · rintro ⟨_, h, rfl⟩
      cases h
      rfl
  | error e s =>
    constructor
    · intro h
      cases h
    · rintro ⟨_, h, -⟩
      cases h

end Within

/-- A part that is put in place is found there, and the last one put counts: so two actions on it are
one. -/
theorem within_bind (part : τ → σ) (put : σ → τ → τ) (hget : ∀ p t, part (put p t) = p)
    (hput : ∀ p q t, put p (put q t) = put p t) (x : Action σ α) (f : α → Action σ β) :
    (x >>= f).within part put = x.within part put >>= fun a => (f a).within part put := by
  funext t
  cases hx : x (part t) with
  | error fault s =>
    rw [within_of_error (bind_of_error hx), bind_of_error (within_of_error hx)]
  | ok a s =>
    rw [bind_of_ok (within_of_ok hx)]
    cases hf : f a s with
    | ok b s' =>
      rw [within_of_ok ((bind_of_ok hx).trans hf), within_of_ok ((hget s t).symm ▸ hf), hput]
    | error fault s' =>
      rw [within_of_error ((bind_of_ok hx).trans hf), within_of_error ((hget s t).symm ▸ hf), hput]

/-! ## What an action leaves as it is -/

/-- The state in which an action ends, whatever becomes of it. -/
def final (act : Action σ α) (s : σ) : σ :=
  match act s with
  | .ok _ t => t
  | .error _ t => t

theorem final_of_ok {act : Action σ α} {s t : σ} {a : α} (h : act s = .ok a t) :
    final act s = t := by
  unfold final
  rw [h]

theorem final_of_error {act : Action σ α} {s t : σ} {fault : Fault} (h : act s = .error fault t) :
    final act s = t := by
  unfold final
  rw [h]

/-- What comes of an action, but for the state. -/
def result (act : Action σ α) (s : σ) : Except Fault α :=
  match act s with
  | .ok a _ => .ok a
  | .error fault _ => .error fault

theorem result_of_ok {act : Action σ α} {s t : σ} {a : α} (h : act s = .ok a t) :
    result act s = .ok a := by
  unfold result
  rw [h]

theorem result_of_error {act : Action σ α} {s t : σ} {fault : Fault} (h : act s = .error fault t) :
    result act s = .error fault := by
  unfold result
  rw [h]

/-- The action is done from a state, not refused. -/
def succeeds (act : Action σ α) (s : σ) : Bool :=
  match act s with
  | .ok _ _ => true
  | .error _ _ => false

theorem eq_ok_of_succeeds {act : Action σ Unit} {s : σ} (h : succeeds act s = true) :
    act s = .ok () (final act s) := by
  unfold succeeds at h
  unfold final
  cases ha : act s with
  | ok a t => rfl
  | error fault t =>
    rw [ha] at h
    cases h

theorem exists_ok_of_succeeds {act : Action σ α} {s : σ} (h : succeeds act s = true) :
    ∃ a t, act s = .ok a t := by
  unfold succeeds at h
  cases ha : act s with
  | ok a t => exact ⟨a, t, rfl⟩
  | error fault t =>
    rw [ha] at h
    cases h

theorem succeeds_of_ok {act : Action σ α} {s t : σ} {a : α} (h : act s = .ok a t) :
    succeeds act s = true := by
  unfold succeeds
  rw [h]

theorem final_congr {act act' : Action σ α} {s s' : σ} (h : act s = act' s') :
    final act s = final act' s' := by
  unfold final
  rw [h]

theorem final_bind_of_ok {x : Action σ α} {f : α → Action σ β} {s t : σ} {a : α}
    (h : x s = .ok a t) : final (x >>= f) s = final (f a) t := final_congr (bind_of_ok h)

theorem final_bind_of_error {x : Action σ α} {f : α → Action σ β} {s t : σ} {fault : Fault}
    (h : x s = .error fault t) : final (x >>= f) s = t := final_of_error (bind_of_error h)

theorem result_congr {act act' : Action σ α} {s s' : σ} (h : act s = act' s') :
    result act s = result act' s' := by
  unfold result
  rw [h]

theorem result_bind_of_ok {x : Action σ α} {f : α → Action σ β} {s t : σ} {a : α}
    (h : x s = .ok a t) : result (x >>= f) s = result (f a) t := result_congr (bind_of_ok h)

theorem result_bind_of_error {x : Action σ α} {f : α → Action σ β} {s t : σ} {fault : Fault}
    (h : x s = .error fault t) : result (x >>= f) s = .error fault :=
  result_of_error (bind_of_error h)

theorem final_discard (x : Action σ α) (s : σ) : final (Functor.discard x) s = final x s := by
  cases h : x s with
  | ok a t => rw [final_of_ok (discard_eq_ok.2 ⟨a, h⟩), final_of_ok h]
  | error fault t => rw [final_of_error (discard_eq_error.2 h), final_of_error h]

theorem final_within (part : τ → σ) (put : σ → τ → τ) (act : Action σ α) (t : τ) :
    final (act.within part put) t = put (final act (part t)) t := by
  cases h : act (part t) with
  | ok a s => rw [final_of_ok (within_of_ok h), final_of_ok h]
  | error fault s => rw [final_of_error (within_of_error h), final_of_error h]

def Keeps (view : σ → γ) (act : Action σ α) : Prop := ∀ s, view (final act s) = view s

section Keeps
variable {view : σ → γ}

theorem Keeps.of_ok {act : Action σ α} (h : Keeps view act) {s t : σ} {a : α}
    (he : act s = .ok a t) : view t = view s := final_of_ok he ▸ h s

theorem Keeps.of_error {act : Action σ α} (h : Keeps view act) {s t : σ} {fault : Fault}
    (he : act s = .error fault t) : view t = view s := final_of_error he ▸ h s

theorem keeps_pure (a : α) : Keeps view (pure a : Action σ α) := fun _ => rfl

theorem keeps_refuse (cause : StoreError) : Keeps view (refuse cause : Action σ α) := fun _ => rfl

theorem keeps_modify {f : σ → σ} (h : ∀ s, view (f s) = view s) :
    Keeps view (modify f : Action σ Unit) := h

theorem keeps_ofExcept (x : Except StoreError α) : Keeps view (ofExcept x : Action σ α) := by
  cases x with
  | ok a => exact keeps_pure a
  | error e => exact keeps_refuse e

theorem keeps_slot (x : Option α) : Keeps view (slot x : Action σ α) := by
  cases x with
  | some a => exact keeps_pure a
  | none => exact fun _ => rfl

theorem Keeps.bind {x : Action σ α} {f : α → Action σ β} (hx : Keeps view x)
    (hf : ∀ a, Keeps view (f a)) : Keeps view (x >>= f) := by
  intro s
  cases h : x s with
  | ok a t =>
    have hs : view (final (f a) t) = view s := (hf a t).trans (hx.of_ok h)
    unfold final at hs ⊢
    rwa [bind_of_ok h]
  | error e t =>
    rw [final_of_error (bind_of_error h)]
    exact hx.of_error h

/-- A step that looks at the state first. -/
theorem Keeps.get_bind {f : σ → Action σ β} (hf : ∀ s, Keeps view (f s)) :
    Keeps view (get >>= f) := fun s => hf s s

/-- A step that goes on from the state that it has looked at. -/
theorem keeps_get_bind {f : σ → Action σ β} (hf : ∀ s, view (final (f s) s) = view s) :
    Keeps view (get >>= f) := hf

/-- A step that puts another state in place first. -/
theorem Keeps.set_bind {f : PUnit → Action σ β} (hf : ∀ u, Keeps view (f u)) {s t : σ}
    (ht : view t = view s) : view (final (set t >>= f) s) = view s := (hf ⟨⟩ t).trans ht

theorem Keeps.ite {p : Prop} [Decidable p] {x y : Action σ α} (hx : Keeps view x)
    (hy : Keeps view y) : Keeps view (if p then x else y) := by
  split
  · exact hx
  · exact hy

theorem Keeps.discard {x : Action σ α} (hx : Keeps view x) :
    Keeps view (Functor.discard x) := by
  intro s
  rw [final_discard]
  exact hx s

theorem Keeps.forM {f : α → Action σ Unit} (hf : ∀ a, Keeps view (f a)) (xs : List α) :
    Keeps view (xs.forM f) := by
  induction xs with
  | nil => exact keeps_pure ()
  | cons x xs ih => exact (hf x).bind fun _ => ih

theorem Keeps.mapM {f : α → Action σ β} (hf : ∀ a, Keeps view (f a)) (xs : List α) :
    Keeps view (xs.mapM f) := by
  induction xs with
  | nil => exact keeps_pure []
  | cons x xs ih =>
    rw [List.mapM_cons]
    exact (hf x).bind fun _ => ih.bind fun _ => keeps_pure _

/-- An action on a part that the view does not show. -/
theorem keeps_within {part : σ → τ} {put : τ → σ → σ} (hput : ∀ p s, view (put p s) = view s)
    (act : Action τ α) : Keeps view (act.within part put) := by
  intro s
  cases h : act (part s) with
  | ok a t =>
    rw [final_of_ok (within_of_ok h)]
    exact hput t s
  | error e t =>
    rw [final_of_error (within_of_error h)]
    exact hput t s

/-- An action on a part whose own view shows all of it that the larger view does. -/
theorem Keeps.within {δ : Type} {part : σ → τ} {put : τ → σ → σ} {inner : τ → δ} {act : Action τ α}
    (h : Keeps inner act) (hput : ∀ p s, inner p = inner (part s) → view (put p s) = view s) :
    Keeps view (act.within part put) := by
  intro s
  cases ha : act (part s) with
  | ok a t =>
    rw [final_of_ok (within_of_ok ha)]
    exact hput t s (h.of_ok ha)
  | error e t =>
    rw [final_of_error (within_of_error ha)]
    exact hput t s (h.of_error ha)

end Keeps

/-! ## Predicates that an action does not leave -/

/-- An action that starts where the predicate holds ends where it holds, whatever becomes of it. -/
def Stays (P : σ → Prop) (act : Action σ α) : Prop := ∀ s, P s → P (final act s)

section Stays
variable {P : σ → Prop}

theorem stays_pure (a : α) : Stays P (pure a : Action σ α) := fun _ h => h

theorem stays_refuse (cause : StoreError) : Stays P (refuse cause : Action σ α) := fun _ h => h

theorem stays_modify {f : σ → σ} (h : ∀ s, P s → P (f s)) : Stays P (modify f : Action σ Unit) := h

theorem stays_ofExcept (x : Except StoreError α) : Stays P (ofExcept x : Action σ α) := by
  cases x with
  | ok a => exact stays_pure a
  | error e => exact stays_refuse e

theorem stays_slot (x : Option α) : Stays P (slot x : Action σ α) := by
  cases x with
  | some a => exact stays_pure a
  | none => exact fun _ h => h

theorem Stays.of_ok {act : Action σ α} (h : Stays P act) {s t : σ} {a : α} (hs : P s)
    (he : act s = .ok a t) : P t := final_of_ok he ▸ h s hs

theorem Stays.of_error {act : Action σ α} (h : Stays P act) {s t : σ} {fault : Fault} (hs : P s)
    (he : act s = .error fault t) : P t := final_of_error he ▸ h s hs

theorem Stays.bind {x : Action σ α} {f : α → Action σ β} (hx : Stays P x)
    (hf : ∀ a, Stays P (f a)) : Stays P (x >>= f) := by
  intro s hs
  cases h : x s with
  | ok a t =>
    rw [final_bind_of_ok h]
    exact hf a t (hx.of_ok hs h)
  | error fault t =>
    rw [final_bind_of_error h]
    exact hx.of_error hs h

/-- A step that looks at the state first. -/
theorem Stays.get_bind {f : σ → Action σ β} (hf : ∀ s, P s → P (final (f s) s)) :
    Stays P (get >>= f) := hf

theorem Stays.ite {p : Prop} [Decidable p] {x y : Action σ α} (hx : Stays P x) (hy : Stays P y) :
    Stays P (if p then x else y) := by
  split
  · exact hx
  · exact hy

/-- An action on a part that the predicate looks at. -/
theorem Stays.within {part : τ → σ} {put : σ → τ → τ} {act : Action σ α} {Q : τ → Prop}
    (h : Stays P act) (hpart : ∀ t, Q t → P (part t)) (hput : ∀ p t, Q t → P p → Q (put p t)) :
    Stays Q (act.within part put) := by
  intro t ht
  rw [final_within]
  exact hput _ t ht (h _ (hpart t ht))

end Stays

end RowStore.Action
