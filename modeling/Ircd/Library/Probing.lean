import Mathlib.Data.List.Nodup
import Mathlib.Data.List.Range
import Mathlib.Logic.Function.Basic

/-! Hash tables with open addressing: an entry stands in the first free slot from its hash position on, round the
end of the table. Entries are never removed.

Two entries are the same if `same` says so, and then they have one hash position.
-/

set_option autoImplicit false

namespace Ircd.Library

section
variable {α : Type} {size : Nat} {slots : Nat → Option α}

/-- From a position on, the first slot that is free or that holds what is looked for, and whether it holds it. -/
def probe (size : Nat) (slots : Nat → Option α) (found : α → Bool) : Nat → Nat → Option (Nat × Bool)
  | 0, _ => none
  | fuel + 1, pos =>
    match slots (pos % size) with
    | none => some (pos % size, false)
    | some a => if found a then some (pos % size, true) else probe size slots found fuel (pos + 1)

/-- The entries of a table. -/
def stored (size : Nat) (slots : Nat → Option α) : List α := (List.range size).filterMap slots

theorem mem_stored {a : α} : a ∈ stored size slots ↔ ∃ i < size, slots i = some a := by
  simp only [stored, List.mem_filterMap, List.mem_range]

/-- Between the hash position of an entry and its slot no slot is free, and no entry is there twice. -/
structure Probed (size : Nat) (home : α → Nat) (same : α → α → Bool) (slots : Nat → Option α) : Prop where
  placed : ∀ i < size, ∀ a, slots i = some a →
    ∃ d, i = (home a + d) % size ∧ ∀ e < d, slots ((home a + e) % size) ≠ none
  distinct : ∀ i < size, ∀ j < size, ∀ a b, slots i = some a → slots j = some b → same a b = true → i = j

variable {found : α → Bool}

/-- A probe only asks about the entries of the table. -/
theorem probe_congr {other : α → Bool} (room : 0 < size)
    (agree : ∀ i < size, ∀ a, slots i = some a → found a = other a) (fuel pos : Nat) :
    probe size slots found fuel pos = probe size slots other fuel pos := by
  induction fuel generalizing pos with
  | zero => rfl
  | succ fuel ih =>
    rw [probe, probe]
    cases here : slots (pos % size) with
    | none => rfl
    | some a =>
      dsimp only
      rw [agree _ (Nat.mod_lt pos room) a here, ih]

/-- What a probe has seen when it has not ended. -/
theorem probe_none {fuel pos : Nat} (unended : probe size slots found fuel pos = none) :
    ∀ e < fuel, slots ((pos + e) % size) ≠ none := by
  induction fuel generalizing pos with
  | zero => exact fun e below => absurd below (Nat.not_lt_zero e)
  | succ fuel ih =>
    rw [probe] at unended
    cases here : slots (pos % size) with
    | none => simp [here] at unended
    | some a =>
      rw [here] at unended
      dsimp only at unended
      split at unended
      · cases unended
      · intro e below
        cases e with
        | zero => simp [here]
        | succ e =>
          have step := ih unended e (by omega)
          rwa [Nat.add_right_comm, Nat.add_assoc] at step

/-- Round the table every slot is seen. -/
theorem exists_offset_mod {i : Nat} (inside : i < size) (pos : Nat) : ∃ e < size, (pos + e) % size = i := by
  have room : 0 < size := Nat.lt_of_le_of_lt (Nat.zero_le i) inside
  refine ⟨(i + (size - pos % size)) % size, Nat.mod_lt _ room, ?_⟩
  have below := Nat.mod_lt pos room
  rw [Nat.add_mod_mod, ← Nat.mod_add_mod]
  have whole : pos % size + (i + (size - pos % size)) = i + size := by omega
  rw [whole, Nat.add_mod_right, Nat.mod_eq_of_lt inside]

/-- With a free slot every probe ends. -/
theorem probe_ends {i : Nat} (inside : i < size) (free : slots i = none) (found : α → Bool) (pos : Nat) :
    ∃ result, probe size slots found size pos = some result := by
  cases run : probe size slots found size pos with
  | some result => exact ⟨result, rfl⟩
  | none =>
    obtain ⟨e, below, there⟩ := exists_offset_mod inside pos
    exact absurd (there ▸ free) (probe_none run e below)

theorem probe_hit {fuel pos i : Nat} (run : probe size slots found fuel pos = some (i, true)) (room : 0 < size) :
    i < size ∧ ∃ a, slots i = some a ∧ found a = true := by
  induction fuel generalizing pos with
  | zero => cases run
  | succ fuel ih =>
    rw [probe] at run
    cases here : slots (pos % size) with
    | none => simp [here] at run
    | some a =>
      rw [here] at run
      dsimp only at run
      split at run
      · rename_i hit
        cases run
        exact ⟨Nat.mod_lt _ room, a, here, hit⟩
      · exact ih run

theorem probe_free {fuel pos i : Nat} (run : probe size slots found fuel pos = some (i, false)) :
    slots i = none ∧ ∃ d, i = (pos + d) % size ∧
      ∀ e < d, ∃ a, slots ((pos + e) % size) = some a ∧ found a = false := by
  induction fuel generalizing pos with
  | zero => cases run
  | succ fuel ih =>
    rw [probe] at run
    cases here : slots (pos % size) with
    | none =>
      rw [here] at run
      cases run
      exact ⟨here, 0, rfl, fun e below => absurd below (Nat.not_lt_zero e)⟩
    | some a =>
      rw [here] at run
      dsimp only at run
      split at run
      · cases run
      · rename_i miss
        obtain ⟨free, d, place, before⟩ := ih run
        refine ⟨free, d + 1, by rw [place, Nat.add_right_comm, Nat.add_assoc], fun e below => ?_⟩
        cases e with
        | zero => exact ⟨a, here, by simpa using miss⟩
        | succ e =>
          have step := before e (by omega)
          rwa [Nat.add_right_comm, Nat.add_assoc] at step

variable {home : α → Nat} {same : α → α → Bool}

/-- A probe that ends at a free slot has missed nothing. -/
theorem Probed.absent (probed : Probed size home same slots) {x : α}
    (hashed : ∀ a, same x a = true → home a = home x) {fuel i : Nat}
    (run : probe size slots (same x) fuel (home x) = some (i, false)) :
    ∀ a ∈ stored size slots, same x a = false := by
  intro a mem
  obtain ⟨j, inside, holds⟩ := mem_stored.mp mem
  cases hit : same x a with
  | false => rfl
  | true =>
    obtain ⟨free, d, place, before⟩ := probe_free run
    obtain ⟨d', there, full⟩ := probed.placed j inside a holds
    rw [hashed a hit] at there full
    rcases Nat.lt_trichotomy d' d with nearer | rfl | further
    · obtain ⟨b, holds_b, miss⟩ := before d' nearer
      rw [← there, holds] at holds_b
      cases holds_b
      exact absurd hit (by simp [miss])
    · rw [place, ← there, holds] at free
      cases free
    · exact absurd (place ▸ free) (full d further)

end

section
variable {α : Type} {size : Nat} {slots : Nat → Option α} {home : α → Nat} {same : α → α → Bool}

theorem probed_empty : Probed size home same fun _ => none := ⟨fun _ _ _ => nofun, fun _ _ _ _ _ _ => nofun⟩

/-- An entry that is not there yet goes to the free slot that its probe ends at. -/
theorem Probed.insert (probed : Probed size home same slots) {x : α} (symmetric : ∀ a, same a x = same x a)
    (hashed : ∀ a, same x a = true → home a = home x) {fuel i : Nat}
    (run : probe size slots (same x) fuel (home x) = some (i, false)) :
    Probed size home same (Function.update slots i (some x)) := by
  have absent := probed.absent hashed run
  obtain ⟨free, d, place, before⟩ := probe_free run
  have still {k : Nat} (full : slots k ≠ none) : Function.update slots i (some x) k ≠ none := by
    by_cases here : k = i
    · rw [here, Function.update_self]
      nofun
    · rwa [Function.update_of_ne here]
  constructor
  · intro k inside a holds
    by_cases here : k = i
    · subst here
      rw [Function.update_self] at holds
      cases holds
      refine ⟨d, place, fun e below => still ?_⟩
      obtain ⟨b, holds_b, -⟩ := before e below
      rw [holds_b]
      nofun
    · rw [Function.update_of_ne here] at holds
      obtain ⟨d', there, full⟩ := probed.placed k inside a holds
      exact ⟨d', there, fun e below => still (full e below)⟩
  · intro k inside l inside' a b holds holds' twins
    by_cases here : k = i <;> by_cases there : l = i
    · exact here.trans there.symm
    · rw [here, Function.update_self] at holds
      rw [Function.update_of_ne there] at holds'
      cases holds
      exact absurd twins (by simp [absent b (mem_stored.mpr ⟨l, inside', holds'⟩)])
    · rw [there, Function.update_self] at holds'
      rw [Function.update_of_ne here] at holds
      cases holds'
      rw [symmetric] at twins
      exact absurd twins (by simp [absent a (mem_stored.mpr ⟨k, inside, holds⟩)])
    · rw [Function.update_of_ne here] at holds
      rw [Function.update_of_ne there] at holds'
      exact probed.distinct k inside l inside' a b holds holds' twins

theorem stored_empty : stored size (fun _ => (none : Option α)) = [] := by simp [stored]

theorem stored_insert {i : Nat} (inside : i < size) (free : slots i = none) (x : α) :
    (stored size (Function.update slots i (some x))).Perm (x :: stored size slots) := by
  obtain ⟨front, rest, shape⟩ := List.append_of_mem (List.mem_range.mpr inside)
  have apart := List.nodup_range (n := size)
  rw [shape] at apart
  have others {l : List Nat} (outside : i ∉ l) :
      l.filterMap (Function.update slots i (some x)) = l.filterMap slots := by
    apply List.filterMap_congr
    intro k mem
    have other : k ≠ i := by
      rintro rfl
      exact outside mem
    exact Function.update_of_ne other _ _
  have once := (List.nodup_middle.mp apart)
  simp only [List.nodup_cons, List.mem_append, not_or] at once
  rw [stored, stored, shape, List.filterMap_append, List.filterMap_append, List.filterMap_cons, List.filterMap_cons,
    Function.update_self, free, others once.1.1, others once.1.2]
  exact List.perm_middle

/-- A table that is not full has a free slot. -/
theorem exists_free (room : (stored size slots).length < size) : ∃ i < size, slots i = none := by
  by_contra full
  simp only [not_exists, not_and] at full
  have all : (stored size slots).length = (List.range size).length := by
    rw [stored, List.filterMap_length_eq_length]
    intro i mem
    exact Option.isSome_iff_ne_none.mpr (full i (List.mem_range.mp mem))
  rw [List.length_range] at all
  omega

theorem Probed.pairwise (probed : Probed size home same slots) :
    (stored size slots).Pairwise fun a b => same a b = false := by
  rw [stored, List.pairwise_filterMap]
  refine List.pairwise_lt_range.imp_of_mem fun mem mem' before a holds b holds' => ?_
  cases twins : same a b with
  | false => rfl
  | true =>
    have one := probed.distinct _ (List.mem_range.mp mem) _ (List.mem_range.mp mem') a b holds holds' twins
    omega

end

end Ircd.Library
