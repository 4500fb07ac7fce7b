import Mathlib.Data.List.Basic
import Mathlib.Data.List.Nodup
import Mathlib.Logic.Function.Basic
import Mathlib.Tactic.Common

/-! Singly linked chains: the cells met from a pointer by following `next`. -/

set_option autoImplicit false

namespace Ircd.Library

variable {α : Type} {next next' : α → Option α}

def Chain (next : α → Option α) : Option α → List α → Prop
  | p, [] => p = none
  | p, a :: l => p = some a ∧ Chain next (next a) l

variable {l : List α}

variable {p : Option α}

@[simp] theorem chain_nil : Chain next p [] ↔ p = none := Iff.rfl

@[simp] theorem chain_cons {a : α} :
    Chain next p (a :: l) ↔ p = some a ∧ Chain next (next a) l := Iff.rfl

theorem chain_none : Chain next none l ↔ l = [] := by
  cases l <;> simp

theorem Chain.exists_cons {a : α} (chain : Chain next (some a) l) :
    ∃ rest, l = a :: rest ∧ Chain next (next a) rest := by
  cases l with
  | nil => cases chain
  | cons b rest =>
    obtain ⟨same, rest_chain⟩ := chain
    cases same
    exact ⟨rest, rfl, rest_chain⟩

theorem Chain.unique {l' : List α} (chain : Chain next p l) (chain' : Chain next p l') :
    l = l' := by
  induction l generalizing p l' with
  | nil =>
    rw [chain_nil] at chain
    subst chain
    exact (chain_none.mp chain').symm
  | cons a l ih =>
    obtain ⟨rfl, rest⟩ := chain
    obtain ⟨l'', rfl, rest'⟩ := chain'.exists_cons
    rw [ih rest rest']

theorem Chain.head_eq (chain : Chain next p l) : p = l.head? := by
  cases l with
  | nil => exact chain
  | cons a l => exact chain.1

/-- Only the cells of the chain matter. -/
theorem Chain.congr (chain : Chain next p l) (same : ∀ a ∈ l, next' a = next a) : Chain next' p l := by
  induction l generalizing p with
  | nil => exact chain
  | cons a l ih =>
    refine ⟨chain.1, ?_⟩
    rw [same a List.mem_cons_self]
    exact ih chain.2 fun b mem => same b (List.mem_cons_of_mem a mem)

/-- The cells behind one of the chain. -/
theorem Chain.next_mid {r : List α} {a : α} (chain : Chain next p (l ++ a :: r)) :
    Chain next (next a) r := by
  induction l generalizing p with
  | nil => exact chain.2
  | cons b l ih => exact ih chain.2

theorem Chain.last_next {a : α} (chain : Chain next p (l ++ [a])) :
    next a = none := by
  induction l generalizing p with
  | nil => exact chain.2
  | cons b l ih => exact ih chain.2

/-- A cell is linked behind the last one. -/
theorem Chain.snoc {a b : α} (chain : Chain next p (l ++ [a])) (same : ∀ c ∈ l, next' c = next c)
    (link : next' a = some b) (last : next' b = none) :
    Chain next' p (l ++ [a, b]) := by
  induction l generalizing p with
  | nil => exact ⟨chain.1, link, last⟩
  | cons c l ih =>
    refine ⟨chain.1, ?_⟩
    rw [same c List.mem_cons_self]
    exact ih chain.2 fun d mem => same d (List.mem_cons_of_mem c mem)

/-- The chain ends at a cell. -/
theorem Chain.ends_at {rest : List α} {a : α} (chain : Chain next p (l ++ a :: rest))
    (same : ∀ c ∈ l, next' c = next c) (last : next' a = none) : Chain next' p (l ++ [a]) := by
  induction l generalizing p with
  | nil => exact ⟨chain.1, last⟩
  | cons c l ih =>
    refine ⟨chain.1, ?_⟩
    rw [same c List.mem_cons_self]
    exact ih chain.2 fun d mem => same d (List.mem_cons_of_mem c mem)

/-- The walk along a chain to the first cell that stops it, with a bound on its turns. -/
def findCell (next : α → Option α) (stop : α → Bool) : Nat → Option α → Option (Option α)
  | 0, _ => none
  | _ + 1, none => some none
  | fuel + 1, some a => if stop a then some (some a) else findCell next stop fuel (next a)

theorem Chain.findCell (chain : Chain next p l) (stop : α → Bool) {fuel : Nat} (enough : l.length < fuel) :
    findCell next stop fuel p = some (l.find? stop) := by
  induction l generalizing p fuel with
  | nil =>
    obtain ⟨fuel, rfl⟩ : ∃ n, fuel = n + 1 := ⟨fuel - 1, by simp at enough; omega⟩
    rw [chain_nil] at chain
    rw [chain]
    rfl
  | cons a l ih =>
    obtain ⟨fuel, rfl⟩ : ∃ n, fuel = n + 1 := ⟨fuel - 1, by simp at enough; omega⟩
    obtain ⟨rfl, rest⟩ := chain
    cases stops : stop a with
    | true => simp [Library.findCell, stops]
    | false => simp [Library.findCell, stops, ih rest (by simpa using enough)]

theorem findCell_mono {stop : α → Bool} {fuel : Nat} {found : Option α}
    (ends : findCell next stop fuel p = some found) {more : Nat} (enough : fuel ≤ more) :
    findCell next stop more p = some found := by
  induction fuel generalizing p more with
  | zero => cases ends
  | succ fuel ih =>
    obtain ⟨more, rfl⟩ : ∃ n, more = n + 1 := ⟨more - 1, by omega⟩
    cases p with
    | none => exact ends
    | some a =>
      unfold findCell at ends ⊢
      cases stops : stop a with
      | true => simpa [stops] using ends
      | false =>
        simp only [stops, Bool.false_eq_true, if_false] at ends ⊢
        exact ih ends (by omega)

/-- Whatever bound lets the walk end, it finds the first cell of the chain that stops it. -/
theorem Chain.found (chain : Chain next p l) {stop : α → Bool} {fuel : Nat} {found : Option α}
    (ends : Library.findCell next stop fuel p = some found) : found = l.find? stop := by
  have more := findCell_mono ends (Nat.le_max_left fuel (l.length + 1))
  have walk := chain.findCell stop (Nat.lt_of_lt_of_le (Nat.lt_succ_self l.length) (Nat.le_max_right fuel (l.length + 1)))
  exact Option.some.inj (more.symm.trans walk)

/-- The cells met from a pointer, with a bound on their number. -/
def walk (next : α → Option α) : Nat → Option α → List α
  | 0, _ => []
  | _ + 1, none => []
  | fuel + 1, some a => a :: walk next fuel (next a)

theorem Chain.walk (chain : Chain next p l) {fuel : Nat} (enough : l.length ≤ fuel) :
    walk next fuel p = l := by
  induction l generalizing p fuel with
  | nil =>
    rw [chain_nil] at chain
    rw [chain]
    cases fuel <;> rfl
  | cons a l ih =>
    obtain ⟨rfl, rest⟩ := chain
    obtain ⟨fuel, rfl⟩ : ∃ n, fuel = n + 1 := ⟨fuel - 1, by rw [List.length_cons] at enough; omega⟩
    rw [Library.walk, ih rest (Nat.le_of_succ_le_succ enough)]

section
variable [DecidableEq α]

/-- A cell is linked before the first one. -/
theorem Chain.push {p : Option α} {l : List α} {a : α} (chain : Chain next p l) (absent : a ∉ l) :
    Chain (Function.update next a p) (some a) (a :: l) := by
  refine ⟨rfl, ?_⟩
  rw [Function.update_self]
  apply chain.congr
  intro b mem
  have other : b ≠ a := fun same => absent (same ▸ mem)
  exact Function.update_of_ne other _ _

/-- The cell behind `prev` is taken out. -/
theorem Chain.unlink {p : Option α} {front : List α} {prev a : α} {back : List α}
    (chain : Chain next p (front ++ prev :: a :: back)) (distinct : (front ++ prev :: a :: back).Nodup) :
    Chain (Function.update next prev (next a)) p (front ++ prev :: back) := by
  induction front generalizing p with
  | nil =>
    obtain ⟨head, -, rest⟩ := chain
    refine ⟨head, ?_⟩
    rw [Function.update_self]
    apply rest.congr
    intro b mem
    have fresh := (List.nodup_cons.mp distinct).1
    have other : b ≠ prev := fun same => fresh (same ▸ List.mem_cons_of_mem a mem)
    exact Function.update_of_ne other _ _
  | cons c front ih =>
    obtain ⟨fresh, distinct⟩ := List.nodup_cons.mp distinct
    refine ⟨chain.1, ?_⟩
    rw [Function.update_of_ne fun same => fresh (by simp [same])]
    exact ih chain.2 distinct

omit [DecidableEq α] in
/-- The cells behind `prev` are the rest of the chain. -/
theorem Chain.next_middle {p : Option α} {front : List α} {prev : α} {back : List α}
    (chain : Chain next p (front ++ prev :: back)) : next prev = back.head? :=
  chain.next_mid.head_eq

omit [DecidableEq α] in
theorem Chain.next_mem {p : Option α} {l : List α} {a b : α} (chain : Chain next p l) (mem : a ∈ l)
    (link : next a = some b) : b ∈ l := by
  induction l generalizing p with
  | nil => cases mem
  | cons c l ih =>
    rcases List.mem_cons.mp mem with rfl | mem
    · have rest := chain.2
      rw [link] at rest
      obtain ⟨_, rfl, -⟩ := rest.exists_cons
      simp
    · exact List.mem_cons_of_mem c (ih chain.2 mem)

/-- The walk to the cell before one of the chain. -/
theorem Chain.find_before {p : Option α} {front : List α} {prev a : α} {back : List α}
    (chain : Chain next p (front ++ prev :: a :: back)) (distinct : (front ++ prev :: a :: back).Nodup) :
    (front ++ prev :: a :: back).find? (fun c => next c = some a) = some prev := by
  induction front generalizing p with
  | nil => exact List.find?_cons_of_pos (decide_eq_true chain.2.1)
  | cons c front ih =>
    have elsewhere : next c ≠ some a := by
      intro link
      have rest := chain.2
      rw [link] at rest
      obtain ⟨_, same, -⟩ := rest.exists_cons
      have tail := (List.nodup_cons.mp distinct).2
      cases front with
      | nil =>
        cases same
        simp at tail
      | cons d front =>
        cases same
        simp at tail
    rw [List.cons_append, List.find?_cons_of_neg (by simpa using elsewhere)]
    exact ih chain.2 (List.nodup_cons.mp distinct).2

end

end Ircd.Library
