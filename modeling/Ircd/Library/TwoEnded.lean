import Ircd.Library.TwoWay

/-! Families of two-way lists that also know their last cells.

Whoever unlinks a cell does not have to know its list: it compares the cell with every first and every last one.
-/

set_option autoImplicit false

namespace Ircd.Library

structure TwoEnded (κ α : Type) extends TwoWay κ α where
  last : κ → Option α

section
variable {κ α : Type} [DecidableEq κ] [DecidableEq α]

/-- The cells of `l` with key `k` are the list of `k`, and the last of them is known. -/
structure TwoEnded.Holds (lists : TwoEnded κ α) (key : α → Option κ) (l : List α) : Prop where
  two_way : lists.toTwoWay.Holds key l
  last : ∀ k, lists.last k = (l.filter fun a => key a = some k).getLast?

/-- Enter a cell at the head of a list. -/
def TwoEnded.push (lists : TwoEnded κ α) (k : κ) (a : α) : TwoEnded κ α :=
  { lists.toTwoWay.push k a with
    last := if lists.last k = none then Function.update lists.last k (some a) else lists.last }

/-- Unlink a cell from whatever list it is on. -/
def TwoEnded.unlink (lists : TwoEnded κ α) (a : α) : TwoEnded κ α :=
  let prev := setPrev lists.prev (lists.next a) (lists.prev a)
  let next := setPrev lists.next (prev a) (lists.next a)
  { next := next
    prev := prev
    head := fun k => if lists.head k = some a then next a else lists.head k
    last := fun k => if lists.last k = some a then prev a else lists.last k }

variable {l : List α}

omit [DecidableEq κ] [DecidableEq α] in
/-- The first cell is the one without a pointer back. -/
theorem Prevs.first_iff {prev : α → Option α} (prevs : Prevs prev none l) {a : α} (there : a ∈ l) :
    prev a = none ↔ l.head? = some a := by
  have behind {p : α} {l : List α} (prevs : Prevs prev (some p) l) (there : a ∈ l) : prev a ≠ none := by
    rcases prevs.mem there with first | ⟨q, -, before⟩
    · simp [first]
    · simp [before]
  cases l with
  | nil => cases there
  | cons b l =>
    rw [List.head?_cons, Option.some.injEq]
    constructor
    · intro first
      rcases List.mem_cons.mp there with rfl | later
      · rfl
      · exact absurd first (behind prevs.2 later)
    · rintro rfl
      exact prevs.1

omit [DecidableEq κ] [DecidableEq α] in
/-- Behind the front of a list the pointers back go on from its last cell. -/
theorem Prevs.behind {prev : α → Option α} {p : Option α} {front rest : List α}
    (prevs : Prevs prev p (front ++ rest)) : Prevs prev (front.getLast?.or p) rest := by
  induction front generalizing p with
  | nil => exact prevs
  | cons b front ih =>
    have rest := ih prevs.2
    cases front with
    | nil => exact rest
    | cons c front => simpa [List.getLast?_cons] using rest

omit [DecidableEq κ] [DecidableEq α] in
/-- No cell points back to itself. -/
theorem Prevs.not_self {prev : α → Option α} (prevs : Prevs prev none l) (distinct : l.Nodup) {a : α}
    (there : a ∈ l) : prev a ≠ some a := by
  obtain ⟨front, rest, rfl⟩ := List.append_of_mem there
  have before := prevs.behind.1
  rw [Option.or_none] at before
  intro self
  rw [self] at before
  have mem : a ∈ front := List.mem_of_getLast? before.symm
  exact (List.nodup_append.mp distinct).2.2 a mem a List.mem_cons_self rfl

omit [DecidableEq κ] in
theorem Prevs.erase_last {prev : α → Option α} (prevs : Prevs prev none l) (distinct : l.Nodup) (a : α) :
    (l.erase a).getLast? = if l.getLast? = some a then prev a else l.getLast? := by
  split
  next is_last =>
    obtain ⟨front, rfl⟩ := List.getLast?_eq_some_iff.mp is_last
    have outside : a ∉ front := fun mem => (List.nodup_append.mp distinct).2.2 a mem a List.mem_cons_self rfl
    rw [List.erase_append_right _ outside, List.erase_cons_head, List.append_nil, prevs.behind.1, Option.or_none]
  next other =>
    rcases List.eq_nil_or_concat l with rfl | ⟨front, b, rfl⟩
    · rfl
    · rw [List.concat_eq_append] at other ⊢
      rw [List.getLast?_append, List.getLast?_singleton, Option.some_or, Option.some.injEq] at other
      by_cases mem : a ∈ front
      · rw [List.erase_append_left _ mem]
        simp
      · rw [List.erase_append_right _ mem, List.erase_cons_tail (by simpa using other)]
        simp

variable {lists : TwoEnded κ α} {key : α → Option κ}

theorem TwoEnded.Holds.push (holds : lists.Holds key l) (distinct : l.Nodup) {a : α} (fresh : a ∉ l) {k : κ}
    (key_a : key a = some k) :
    (lists.push k a).Holds key (a :: l) := by
  refine ⟨holds.two_way.push distinct fresh key_a, ?_⟩
  intro k'
  by_cases same : k' = k
  · subst same
    rw [List.filter_cons_of_pos (by simp [key_a]), List.getLast?_cons, ← holds.last, TwoEnded.push]
    dsimp only
    cases last : lists.last k' with
    | none => simp
    | some b => simp [last]
  · have other : ¬key a = some k' := by
      rw [key_a]
      exact fun eq => same (Option.some.inj eq).symm
    rw [List.filter_cons_of_neg (by simpa using other), ← holds.last, TwoEnded.push]
    dsimp only
    split
    · exact Function.update_of_ne same _ _
    · rfl

omit [DecidableEq α] in
/-- The two cells beside a cell are other ones. -/
theorem TwoEnded.Holds.beside (holds : lists.Holds key l) (distinct : l.Nodup) {a : α} (there : a ∈ l) {k : κ}
    (key_a : key a = some k) :
    lists.next a ≠ some a ∧ lists.prev a ≠ some a :=
  ⟨(holds.two_way.next_cell distinct there key_a).1,
    (holds.two_way.prevs k).not_self (distinct.filter _) (List.mem_filter.mpr ⟨there, by simp [key_a]⟩)⟩

/-- Comparing with every first cell comes to unlinking the cell from its own list. -/
theorem TwoEnded.Holds.unlink_toTwoWay (holds : lists.Holds key l) (distinct : l.Nodup) {a : α} (there : a ∈ l)
    {k : κ} (key_a : key a = some k) :
    (lists.unlink a).toTwoWay = lists.toTwoWay.unlink k a := by
  obtain ⟨next_other, prev_other⟩ := holds.beside distinct there key_a
  have first := (holds.two_way.prevs k).first_iff (List.mem_filter.mpr ⟨there, by simp [key_a]⟩)
  rw [← (holds.two_way.chain k).head_eq] at first
  have heads (k' : κ) (is_head : lists.head k' = some a) : k' = k := by
    rw [(holds.two_way.chain k').head_eq] at is_head
    have key_eq : key a = some k' := by simpa using (List.mem_filter.mp (List.mem_of_mem_head? is_head)).2
    rw [key_a] at key_eq
    exact (Option.some.inj key_eq).symm
  unfold TwoEnded.unlink TwoWay.unlink
  simp only [setPrev_of_ne lists.prev next_other, setPrev_of_ne lists.next prev_other]
  cases before : lists.prev a with
  | some p =>
    have no_head (k' : κ) : lists.head k' ≠ some a := by
      intro is_head
      rw [heads k' is_head] at is_head
      rw [first.mpr is_head] at before
      cases before
    simp only [no_head, if_false]
    rfl
  | none =>
    have head : (fun k' => if lists.head k' = some a then lists.next a else lists.head k') =
        Function.update lists.head k (lists.next a) := by
      funext k'
      by_cases same : k' = k
      · rw [same, if_pos (first.mp before), Function.update_self]
      · rw [if_neg (mt (heads k') same), Function.update_of_ne same]
    rw [head]
    rfl

theorem TwoEnded.Holds.unlink (holds : lists.Holds key l) (distinct : l.Nodup) {a : α} (there : a ∈ l) {k : κ}
    (key_a : key a = some k) :
    (lists.unlink a).Holds key (l.erase a) := by
  refine ⟨?_, ?_⟩
  · rw [holds.unlink_toTwoWay distinct there key_a]
    exact holds.two_way.unlink distinct there key_a
  · intro k'
    rw [filter_erase distinct, (holds.two_way.prevs k').erase_last (distinct.filter _), ← holds.last]
    have kept := setPrev_of_ne lists.prev (p := lists.prev a) (holds.beside distinct there key_a).1
    simp only [TwoEnded.unlink, kept]

omit [DecidableEq α] in
/-- Only the cells of the list matter, and their keys. -/
theorem TwoEnded.Holds.congr {lists' : TwoEnded κ α} {key' : α → Option κ} (holds : lists.Holds key l)
    (next : ∀ a ∈ l, lists'.next a = lists.next a) (prev : ∀ a ∈ l, lists'.prev a = lists.prev a)
    (head : lists'.head = lists.head) (last : lists'.last = lists.last) (keys : ∀ a ∈ l, key' a = key a) :
    lists'.Holds key' l := by
  refine ⟨holds.two_way.congr next prev head keys, ?_⟩
  intro k
  have same : (l.filter fun a => key' a = some k) = l.filter fun a => key a = some k :=
    List.filter_congr fun a mem => by rw [keys a mem]
  rw [last, holds.last, same]

end

end Ircd.Library
