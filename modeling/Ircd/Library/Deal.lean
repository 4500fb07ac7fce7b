import Mathlib.Tactic.Common

/-! Letters and the words that some of them take: a reader deals the words out to the letters in order. -/

set_option autoImplicit false

namespace Ircd.Library

variable {α β : Type}

/-- The words dealt out, if each letter that takes one gets one and none is left over. -/
def deal (takes : α → Bool) : List α → List β → Option (List (α × Option β))
  | [], [] => some []
  | [], _ :: _ => none
  | a :: letters, words =>
    if takes a then
      match words with
      | [] => none
      | w :: words => (deal takes letters words).map ((a, some w) :: ·)
    else (deal takes letters words).map ((a, none) :: ·)

/-- What is written down letter by letter, with a word for those that take one, is read back. -/
theorem deal_written {takes : α → Bool} {entries : List (α × Option β)}
    (fit : ∀ e ∈ entries, e.2.isSome = takes e.1) :
    deal takes (entries.map Prod.fst) (entries.filterMap Prod.snd) = some entries := by
  induction entries with
  | nil => rfl
  | cons e entries ih =>
    obtain ⟨a, word⟩ := e
    have rest := ih fun e mem => fit e (List.mem_cons_of_mem _ mem)
    have here := fit (a, word) List.mem_cons_self
    cases word with
    | none =>
      have free : takes a = false := here.symm
      simp [deal, free, rest]
    | some w =>
      have taken : takes a = true := here.symm
      simp [deal, taken, rest]

/-- Whoever deals words out has as many as there are letters that take one. -/
theorem deal_length {takes : α → Bool} {letters : List α} {words : List β} {entries : List (α × Option β)}
    (dealt : deal takes letters words = some entries) : words.length = letters.countP takes := by
  induction letters generalizing words entries with
  | nil =>
    cases words with
    | nil => rfl
    | cons w words => cases dealt
  | cons a letters ih =>
    unfold deal at dealt
    split at dealt
    · rename_i taken
      cases words with
      | nil => cases dealt
      | cons w words =>
        obtain ⟨rest, dealt, -⟩ := Option.map_eq_some_iff.mp dealt
        rw [List.countP_cons_of_pos taken, List.length_cons, ih dealt]
    · rename_i free
      obtain ⟨rest, dealt, -⟩ := Option.map_eq_some_iff.mp dealt
      rw [List.countP_cons_of_neg free, ih dealt]

theorem countP_eq_of_imp {p q : α → Bool} {l : List α} (imp : ∀ a ∈ l, p a = true → q a = true)
    (same : l.countP p = l.countP q) : ∀ a ∈ l, p a = q a := by
  induction l with
  | nil => exact fun _ => nofun
  | cons b l ih =>
    have rest : ∀ a ∈ l, p a = true → q a = true := fun a mem => imp a (List.mem_cons_of_mem b mem)
    have le : l.countP p ≤ l.countP q := List.countP_mono_left rest
    have here := imp b List.mem_cons_self
    simp only [List.countP_cons] at same
    have both : p b = q b ∧ l.countP p = l.countP q := by
      cases pb : p b with
      | true =>
        rw [pb, here pb] at same
        exact ⟨(here pb).symm, Nat.add_right_cancel same⟩
      | false =>
        cases qb : q b with
        | true =>
          simp only [pb, qb, Bool.false_eq_true, if_false, if_true] at same
          omega
        | false =>
          rw [pb, qb] at same
          exact ⟨rfl, Nat.add_right_cancel same⟩
    intro a mem
    rcases List.mem_cons.mp mem with rfl | mem
    · exact both.1
    · exact ih rest both.2 a mem

/-- If no word stands behind a letter that takes none, what is written can be dealt out only if each letter has
the word it takes. -/
theorem written_of_deal {takes : α → Bool} {entries dealt : List (α × Option β)}
    (imp : ∀ e ∈ entries, e.2.isSome = true → takes e.1 = true)
    (deals : deal takes (entries.map Prod.fst) (entries.filterMap Prod.snd) = some dealt) :
    ∀ e ∈ entries, e.2.isSome = takes e.1 := by
  refine countP_eq_of_imp imp ?_
  have words : (entries.filterMap Prod.snd).length = entries.countP fun e => e.2.isSome := by
    rw [List.length_filterMap_eq_countP]
  rw [← words, deal_length deals, List.countP_map]
  rfl

end Ircd.Library
