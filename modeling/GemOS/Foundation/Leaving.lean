import Mathlib.Tactic

/-!
# State programs that may leave

A program takes a state and either returns a value and a state, or leaves for good with a final state:
code that ends in another context never comes back to its caller. Postconditions come in pairs, one for
each way to end.
-/

namespace GemOS.Foundation

universe u v

inductive Outcome (σ : Type u) (α : Type v) where
  | ret (value : α) (state : σ)
  | gone (state : σ)

namespace Outcome

variable {σ : Type u} {α : Type v}

def returns : Outcome σ α → Bool
  | .ret _ _ => true
  | .gone _ => false

theorem returns_iff (outcome : Outcome σ α) :
    outcome.returns = true ↔ ∃ value s, outcome = .ret value s := by
  cases outcome with
  | ret value s => exact ⟨fun _ ↦ ⟨value, s, rfl⟩, fun _ ↦ rfl⟩
  | gone s =>
    constructor
    · exact fun h ↦ Bool.noConfusion h
    · rintro ⟨value, s', h⟩
      exact Outcome.noConfusion rfl rfl (heq_of_eq h)

end Outcome

/-- A program over states `σ` that returns values in `α`. -/
def Prog (σ : Type u) (α : Type v) := σ → Outcome σ α

namespace Prog

variable {σ : Type u} {α β : Type v}

protected def pure (value : α) : Prog σ α := fun s ↦ .ret value s

protected def bind (p : Prog σ α) (f : α → Prog σ β) : Prog σ β := fun s ↦
  match p s with
  | .ret value s' => f value s'
  | .gone s' => .gone s'

instance : Monad (Prog σ) where
  pure := Prog.pure
  bind := Prog.bind

/-- The current state. -/
def read : Prog σ σ := fun s ↦ .ret s s

def update (f : σ → σ) : Prog σ Unit := fun s ↦ .ret () (f s)

/-- A value and the state after it. -/
def call (f : σ → α × σ) : Prog σ α := fun s ↦ .ret (f s).1 (f s).2

/-- Leave with the state computed by `f`. -/
def leave (f : σ → σ) : Prog σ α := fun s ↦ .gone (f s)

/-- The state in which the program ends, either way. -/
def final (p : Prog σ α) (s : σ) : σ :=
  match p s with
  | .ret _ s' => s'
  | .gone s' => s'

end Prog

/-- From `s` the program returns with `Q` or leaves with `E`. -/
def Spec {σ : Type u} {α : Type v} (p : Prog σ α) (s : σ) (Q : α → σ → Prop) (E : σ → Prop) : Prop :=
  match p s with
  | .ret value s' => Q value s'
  | .gone s' => E s'

namespace Spec

variable {σ : Type u} {α β : Type v} {s : σ} {Q Q' : α → σ → Prop} {E E' : σ → Prop} {p : Prog σ α}

theorem mono (h : Spec p s Q E) (hQ : ∀ value s', Q value s' → Q' value s')
    (hE : ∀ s', E s' → E' s') : Spec p s Q' E' := by
  unfold Spec at h ⊢
  cases hp : p s with
  | ret value s' =>
    rw [hp] at h
    exact hQ value s' h
  | gone s' =>
    rw [hp] at h
    exact hE s' h

theorem and {Q₂ : α → σ → Prop} {E₂ : σ → Prop} (h : Spec p s Q E) (h₂ : Spec p s Q₂ E₂) :
    Spec p s (fun value s' ↦ Q value s' ∧ Q₂ value s') fun s' ↦ E s' ∧ E₂ s' := by
  unfold Spec at h h₂ ⊢
  cases hp : p s with
  | ret value s' =>
    rw [hp] at h h₂
    exact ⟨h, h₂⟩
  | gone s' =>
    rw [hp] at h h₂
    exact ⟨h, h₂⟩

theorem pure {value : α} (h : Q value s) : Spec (Pure.pure value : Prog σ α) s Q E := h

theorem bind {f : α → Prog σ β} {R : β → σ → Prop} (h : Spec p s Q E)
    (hf : ∀ value s', Q value s' → Spec (f value) s' R E) : Spec (p >>= f) s R E := by
  change Spec (Prog.bind p f) s R E
  unfold Spec Prog.bind at *
  cases hp : p s with
  | ret value s' =>
    rw [hp] at h
    exact hf value s' h
  | gone s' =>
    rw [hp] at h
    exact h

theorem update {f : σ → σ} {Q : Unit → σ → Prop} (h : Q () (f s)) : Spec (Prog.update f) s Q E := h

theorem leave {f : σ → σ} (h : E (f s)) : Spec (Prog.leave f : Prog σ α) s Q E := h

/-- A program that starts by reading the state goes on with that state. -/
theorem read_bind {τ : Type u} {γ : Type u} {s : τ} {f : τ → Prog τ γ} {R : γ → τ → Prop} {E : τ → Prop}
    (h : Spec (f s) s R E) : Spec (Prog.read >>= f) s R E := h

theorem update_bind {f : σ → σ} {γ : Type} {g : Unit → Prog σ γ} {R : γ → σ → Prop}
    (h : Spec (g ()) (f s) R E) : Spec (Prog.update f >>= g) s R E := h

theorem call_bind {f : σ → α × σ} {g : α → Prog σ β} {R : β → σ → Prop}
    (h : Spec (g (f s).1) (f s).2 R E) : Spec (Prog.call f >>= g) s R E := h

theorem ite {c : Prop} [Decidable c] {p₁ p₂ : Prog σ α} (h₁ : c → Spec p₁ s Q E)
    (h₂ : ¬ c → Spec p₂ s Q E) : Spec (if c then p₁ else p₂) s Q E := by
  split
  · exact h₁ ‹_›
  · exact h₂ ‹_›

/-- A program that cannot leave returns. -/
theorem returns (h : Spec p s Q fun _ ↦ False) : ∃ value s', p s = .ret value s' ∧ Q value s' := by
  unfold Spec at h
  cases hp : p s with
  | ret value s' =>
    rw [hp] at h
    exact ⟨value, s', rfl, h⟩
  | gone s' =>
    rw [hp] at h
    exact h.elim

theorem ret {value : α} {s' : σ} (hret : p s = .ret value s') (h : Q value s') : Spec p s Q E := by
  unfold Spec
  rwa [hret]

/-- A program that returned satisfies its postcondition. -/
theorem of_ret (h : Spec p s Q E) {value : α} {s' : σ} (hret : p s = .ret value s') : Q value s' := by
  unfold Spec at h
  rwa [hret] at h

/-- A program that left did not return. -/
theorem gone (h : Spec p s Q E) :
    Spec p s (fun value s' ↦ Q value s' ∧ p s = .ret value s')
      fun s' ↦ E s' ∧ ∀ value s'', p s ≠ .ret value s'' := by
  unfold Spec at h ⊢
  cases hp : p s with
  | ret value s' =>
    rw [hp] at h
    exact ⟨h, rfl⟩
  | gone s' =>
    rw [hp] at h
    exact ⟨h, fun value s'' hret ↦ by cases hret⟩

/-- A property of both ways to end is a property of the final state. -/
theorem final {P : σ → Prop} (h : Spec p s (fun _ ↦ P) P) : P (p.final s) := by
  unfold Spec at h
  unfold Prog.final
  cases hp : p s with
  | ret value s' =>
    rw [hp] at h
    exact h
  | gone s' =>
    rw [hp] at h
    exact h

end Spec

/-- A relation between the states before and after a program that returns, and one for a program that leaves,
such that programs can follow one another. -/
class Ways {σ : Type u} (Q E : σ → σ → Prop) : Prop where
  refl : ∀ s, Q s s
  trans : ∀ {s s₁ s₂}, Q s s₁ → Q s₁ s₂ → Q s s₂
  after : ∀ {s s₁ s₂}, Q s s₁ → E s₁ s₂ → E s s₂

/-- A program that conforms to `Q` when it returns and to `E` when it leaves. -/
structure Conforms {σ : Type u} {α : Type v} (Q E : σ → σ → Prop) (p : Prog σ α) : Prop where
  spec : ∀ s, Spec p s (fun _ ↦ Q s) (E s)

namespace Conforms

variable {σ : Type u} {α β : Type v} {Q E : σ → σ → Prop} {p : Prog σ α}

theorem pure [Ways Q E] (value : α) : Conforms Q E (Pure.pure value : Prog σ α) := ⟨Ways.refl E⟩

theorem bind [Ways Q E] {f : α → Prog σ β} (h : Conforms Q E p) (hf : ∀ value, Conforms Q E (f value)) :
    Conforms Q E (p >>= f) :=
  ⟨fun s ↦ (h.spec s).bind fun value s₁ hfirst ↦
    ((hf value).spec s₁).mono (fun _ _ ↦ Ways.trans E hfirst) fun _ ↦ Ways.after hfirst⟩

/-- A program that starts by reading the state. -/
theorem read_bind {τ : Type u} {γ : Type u} {Q E : τ → τ → Prop} {f : τ → Prog τ γ}
    (h : ∀ s, Spec (f s) s (fun _ ↦ Q s) (E s)) : Conforms Q E (Prog.read >>= f) := ⟨h⟩

/-- A program that goes on whatever state it reads. -/
theorem reading {τ : Type u} {γ : Type u} {Q E : τ → τ → Prop} {f : τ → Prog τ γ} (h : ∀ s, Conforms Q E (f s)) :
    Conforms Q E (Prog.read >>= f) := ⟨fun s ↦ (h s).spec s⟩

theorem update {f : σ → σ} (h : ∀ s, Q s (f s)) : Conforms Q E (Prog.update f) := ⟨h⟩

theorem call {f : σ → α × σ} (h : ∀ s, Q s (f s).2) : Conforms Q E (Prog.call f) := ⟨h⟩

theorem leave {f : σ → σ} (h : ∀ s, E s (f s)) : Conforms Q E (Prog.leave f : Prog σ α) := ⟨h⟩

theorem ite {c : Prop} [Decidable c] {p₁ p₂ : Prog σ α} (h₁ : Conforms Q E p₁) (h₂ : Conforms Q E p₂) :
    Conforms Q E (if c then p₁ else p₂) := ⟨fun s ↦ .ite (fun _ ↦ h₁.spec s) fun _ ↦ h₂.spec s⟩

theorem mono {Q' E' : σ → σ → Prop} (h : Conforms Q E p) (hQ : ∀ {s s'}, Q s s' → Q' s s')
    (hE : ∀ {s s'}, E s s' → E' s s') : Conforms Q' E' p :=
  ⟨fun s ↦ (h.spec s).mono (fun _ _ ↦ hQ) fun _ ↦ hE⟩

end Conforms

/-- The second program does what the first one does, unless the first leaves in a state that is given up. -/
structure Retraces {σ : Type u} {α : Type v} (lost : σ → Prop) (p q : Prog σ α) : Prop where
  retraces : ∀ s, q s = p s ∨ ∃ s', p s = .gone s' ∧ lost s'

namespace Retraces

variable {σ : Type u} {α β : Type v} {lost : σ → Prop} {p q : Prog σ α}

theorem refl (p : Prog σ α) : Retraces lost p p := ⟨fun _ ↦ Or.inl rfl⟩

theorem bind {f g : α → Prog σ β} (h : Retraces lost p q) (hf : ∀ value, Retraces lost (f value) (g value)) :
    Retraces lost (p >>= f) (q >>= g) := by
  refine ⟨fun s ↦ ?_⟩
  change Prog.bind q g s = Prog.bind p f s ∨ ∃ s', Prog.bind p f s = .gone s' ∧ lost s'
  unfold Prog.bind
  rcases h.retraces s with heq | ⟨s', hgone, hlost⟩
  · rw [heq]
    cases p s with
    | ret value s' => exact (hf value).retraces s'
    | gone s' => exact Or.inl rfl
  · rw [hgone]
    exact Or.inr ⟨s', rfl, hlost⟩

theorem read_bind {τ γ : Type u} {lost : τ → Prop} {f g : τ → Prog τ γ} (h : ∀ s, Retraces lost (f s) (g s)) :
    Retraces lost (Prog.read >>= f) (Prog.read >>= g) := ⟨fun s ↦ (h s).retraces s⟩

theorem ite {c : Prop} [Decidable c] {p₁ q₁ p₂ q₂ : Prog σ α} (h₁ : Retraces lost p₁ q₁) (h₂ : Retraces lost p₂ q₂) :
    Retraces lost (if c then p₁ else p₂) (if c then q₁ else q₂) := by
  split
  · exact h₁
  · exact h₂

/-- What returned did not leave. -/
theorem eq_of_ret (h : Retraces lost p q) {s s' : σ} {value : α} (hret : p s = .ret value s') : q s = p s := by
  rcases h.retraces s with heq | ⟨_, hgone, -⟩
  · exact heq
  · rw [hret] at hgone
    exact Outcome.noConfusion rfl rfl (heq_of_eq hgone)

theorem final (h : Retraces lost p q) {s : σ} (hkept : ¬ lost (p.final s)) : q.final s = p.final s := by
  unfold Prog.final at hkept ⊢
  rcases h.retraces s with heq | ⟨s', hgone, hlost⟩
  · rw [heq]
  · rw [hgone] at hkept
    exact absurd hlost hkept

end Retraces

end GemOS.Foundation
