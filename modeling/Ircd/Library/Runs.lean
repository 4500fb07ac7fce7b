import Mathlib.Logic.Basic

/-! Runs of a system whose steps are functions: what holds of every step, by what one step keeps. -/

set_option autoImplicit false

namespace Ircd.Library

section
variable {σ α : Type} (perform : σ → α → σ)

/-- A property of every step of a run, with the state before it. -/
def Along (step : σ → α → Prop) : σ → List α → Prop
  | _, [] => True
  | s, a :: l => step s a ∧ Along step (perform s a) l

variable {perform} {Allowed P Q : σ → α → Prop} {s : σ} {l : List α}

theorem along_append {l' : List α} :
    Along perform P s (l ++ l') ↔ Along perform P s l ∧ Along perform P (l.foldl perform s) l' := by
  induction l generalizing s with
  | nil => exact (and_iff_right trivial).symm
  | cons a l ih => rw [List.cons_append, Along, Along, ih, and_assoc, List.foldl_cons]

/-- What each step passes on with an invariant is passed on along the run. -/
theorem Along.imp (Inv : σ → Prop) (keeps : ∀ s a, Inv s → Allowed s a → P s a → Q s a ∧ Inv (perform s a))
    (inv : Inv s) (allowed : Along perform Allowed s l) (holds : Along perform P s l) : Along perform Q s l := by
  induction l generalizing s with
  | nil => trivial
  | cons a l ih =>
    obtain ⟨here, inv'⟩ := keeps s a inv allowed.1 holds.1
    exact ⟨here, ih inv' allowed.2 holds.2⟩

/-- Two properties that agree for each step, and of which the invariant depends, agree for the run. -/
theorem Along.iff (Inv : σ → Prop) (agree : ∀ s a, Inv s → Allowed s a → (P s a ↔ Q s a))
    (keeps : ∀ s a, Inv s → Allowed s a → P s a → Inv (perform s a)) (inv : Inv s)
    (allowed : Along perform Allowed s l) : Along perform P s l ↔ Along perform Q s l := by
  constructor
  · intro holds
    refine Along.imp Inv (fun s a inv allowed here => ?_) inv allowed holds
    exact ⟨(agree s a inv allowed).mp here, keeps s a inv allowed here⟩
  · intro holds
    refine Along.imp Inv (fun s a inv allowed here => ?_) inv allowed holds
    have there := (agree s a inv allowed).mpr here
    exact ⟨there, keeps s a inv allowed there⟩

end

/-- Some steps set a field of the state to a value and the others keep it. -/
theorem foldl_field {σ α β : Type} (step : σ → α → σ) {l : List α} (field : σ → β) (z : β) (hits : α → Prop)
    (sets : ∀ a ∈ l, hits a → ∀ s, field (step s a) = z)
    (keeps : ∀ a ∈ l, ¬ hits a → ∀ s, field (step s a) = field s) (s : σ) :
    ((∃ a ∈ l, hits a) → field (l.foldl step s) = z) ∧ ((∀ a ∈ l, ¬ hits a) → field (l.foldl step s) = field s) := by
  induction l generalizing s with
  | nil => exact ⟨fun ⟨_, mem, _⟩ => absurd mem List.not_mem_nil, fun _ => rfl⟩
  | cons a l ih =>
    obtain ⟨later, never⟩ := ih (fun b mem => sets b (List.mem_cons_of_mem a mem))
      (fun b mem => keeps b (List.mem_cons_of_mem a mem)) (step s a)
    refine ⟨?_, fun none => ?_⟩
    · rintro ⟨b, mem, said⟩
      by_cases again : ∃ b ∈ l, hits b
      · exact later again
      · rcases List.mem_cons.mp mem with rfl | mem
        · have silent : ∀ c ∈ l, ¬ hits c := fun c inside said => again ⟨c, inside, said⟩
          exact (never silent).trans (sets b List.mem_cons_self said s)
        · exact absurd ⟨b, mem, said⟩ again
    · exact (never fun b mem => none b (List.mem_cons_of_mem a mem)).trans
        (keeps a List.mem_cons_self (none a List.mem_cons_self) s)

end Ircd.Library
