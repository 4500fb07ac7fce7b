import Ircd.Library.PrevNext

/-! Families of lists whose cells point to the cell behind them and to the cell before them.

A cell that is first in its list points back to nothing, and whoever unlinks it has to know the
head of the list from the cell's key. Seen from there, the pointer back is a pointer to the
pointer before the cell, and the rules for those apply.
-/

set_option autoImplicit false

namespace Ircd.Library

structure TwoWay (κ α : Type) where
  next : α → Option α
  prev : α → Option α
  head : κ → Option α

section
variable {κ α : Type}

/-- The pointer to the pointer before a cell. -/
def TwoWay.prevnextp (lists : TwoWay κ α) (key : α → Option κ) (a : α) : Option (Ref κ α) :=
  match lists.prev a with
  | some p => some (.next p)
  | none => (key a).map .head

def TwoWay.toLinks (lists : TwoWay κ α) (key : α → Option κ) : Links κ α :=
  ⟨lists.next, lists.prevnextp key, lists.head⟩

/-- The pointers back along a list whose first cell has `p` before it. -/
def Prevs (prev : α → Option α) : Option α → List α → Prop
  | _, [] => True
  | p, a :: l => prev a = p ∧ Prevs prev (some a) l

/-- The cells of `l` with key `k` are, in order, the list of `k`. -/
structure TwoWay.Holds (lists : TwoWay κ α) [DecidableEq κ] (key : α → Option κ) (l : List α) : Prop where
  chain : ∀ k, Chain lists.next (lists.head k) (l.filter fun a => key a = some k)
  prevs : ∀ k, Prevs lists.prev none (l.filter fun a => key a = some k)

end

section
variable {κ α : Type} [DecidableEq κ] [DecidableEq α]

/-- Set the pointer back of a cell, if there is one. -/
def setPrev (prev : α → Option α) (a p : Option α) : α → Option α :=
  match a with
  | some a => Function.update prev a p
  | none => prev

/-- Enter a cell at the head of a list. -/
def TwoWay.push (lists : TwoWay κ α) (k : κ) (a : α) : TwoWay κ α :=
  let lists := { lists with next := Function.update lists.next a (lists.head k) }
  let lists := { lists with prev := setPrev lists.prev (lists.next a) (some a) }
  let lists := { lists with prev := Function.update lists.prev a none }
  { lists with head := Function.update lists.head k (some a) }

/-- Unlink a cell from the list of `k`. -/
def TwoWay.unlink (lists : TwoWay κ α) (k : κ) (a : α) : TwoWay κ α :=
  let lists := { lists with prev := setPrev lists.prev (lists.next a) (lists.prev a) }
  match lists.prev a with
  | some p => { lists with next := Function.update lists.next p (lists.next a) }
  | none => { lists with head := Function.update lists.head k (lists.next a) }

variable {lists : TwoWay κ α} {key : α → Option κ} {l : List α}

omit [DecidableEq κ] [DecidableEq α] in
/-- Behind a cell, both kinds of pointers back say the same. -/
theorem back_iff_prevs {p : α} :
    Back (lists.prevnextp key) (.next p) l ↔ Prevs lists.prev (some p) l := by
  induction l generalizing p with
  | nil => exact Iff.rfl
  | cons a l ih =>
    refine and_congr ?_ ih
    unfold TwoWay.prevnextp
    cases lists.prev a with
    | some q => simp
    | none => simp

omit [DecidableEq α] in
theorem TwoWay.holds_iff :
    lists.Holds key l ↔ (lists.toLinks key).Holds key l := by
  have backs : ∀ k, Back (lists.prevnextp key) (.head k) (l.filter fun a => key a = some k) ↔
      Prevs lists.prev none (l.filter fun a => key a = some k) := by
    intro k
    cases first : l.filter fun a => key a = some k with
    | nil => exact Iff.rfl
    | cons a rest =>
      refine and_congr ?_ back_iff_prevs
      have mem : a ∈ l.filter fun a => key a = some k := by simp [first]
      have key_a : key a = some k := by simpa using (List.mem_filter.mp mem).2
      unfold TwoWay.prevnextp
      rw [key_a]
      cases lists.prev a with
      | some q => simp
      | none => simp
  exact ⟨fun holds => ⟨holds.chain, fun k => (backs k).mpr (holds.prevs k)⟩,
    fun holds => ⟨holds.chain, fun k => (backs k).mp (holds.back k)⟩⟩

omit [DecidableEq κ] in
theorem setPrev_self (prev : α → Option α) {a p : Option α} {b : α} (here : a = some b) : setPrev prev a p b = p := by
  rw [here]
  exact Function.update_self ..

omit [DecidableEq κ] in
theorem setPrev_of_ne (prev : α → Option α) {a p : Option α} {b : α} (other : a ≠ some b) :
    setPrev prev a p b = prev b := by
  cases a with
  | none => rfl
  | some a => exact Function.update_of_ne (fun same => other (congrArg some same.symm)) _ _

theorem TwoWay.push_toLinks (lists : TwoWay κ α) {k : κ} {a : α} (key_a : key a = some k)
    (fresh : lists.head k ≠ some a) : (lists.push k a).toLinks key = (lists.toLinks key).push k a := by
  have back : (lists.push k a).prevnextp key = ((lists.toLinks key).push k a).prevnextp := by
    funext b
    unfold TwoWay.prevnextp
    simp only [TwoWay.push, Links.push, Function.update_self, TwoWay.toLinks]
    by_cases self : b = a
    · subst self
      simp [key_a]
    · rw [Function.update_of_ne self, Function.update_of_ne self]
      by_cases first : lists.head k = some b
      · rw [setPrev_self _ first, first]
        simp [pointBack]
      · rw [setPrev_of_ne _ first, pointBack_of_ne first]
        rfl
  have next : (lists.push k a).next = ((lists.toLinks key).push k a).next := rfl
  rw [TwoWay.toLinks, back, next]
  rfl

theorem TwoWay.unlink_toLinks (lists : TwoWay κ α) {k : κ} {a : α} (key_a : key a = some k)
    (same_key : ∀ n, lists.next a = some n → key n = some k) (not_self : lists.next a ≠ some a) :
    (lists.toLinks key).unlink a = some ((lists.unlink k a).toLinks key) := by
  have back : pointBack (lists.prevnextp key) (lists.next a) (lists.prevnextp key a) =
      TwoWay.prevnextp { lists with prev := setPrev lists.prev (lists.next a) (lists.prev a) } key := by
    funext b
    by_cases after : lists.next a = some b
    · rw [after]
      refine (Function.update_self ..).trans ?_
      unfold TwoWay.prevnextp
      simp only [setPrev_self lists.prev (rfl : some b = some b), key_a, same_key b after]
    · rw [pointBack_of_ne after]
      unfold TwoWay.prevnextp
      simp only [setPrev_of_ne lists.prev after]
  unfold Links.unlink TwoWay.unlink
  simp only [TwoWay.toLinks, setPrev_of_ne lists.prev not_self, pointBack_of_ne not_self, back]
  cases before : lists.prev a with
  | some p =>
    have at_a : lists.prevnextp key a = some (.next p) := by simp [TwoWay.prevnextp, before]
    rw [before] at back
    simp only [at_a, Links.store]
    rfl
  | none =>
    have at_a : lists.prevnextp key a = some (.head k) := by simp [TwoWay.prevnextp, before, key_a]
    simp only [at_a, Links.store]
    rfl

omit [DecidableEq α] in
/-- Only the cells of the list matter, and their keys. -/
theorem TwoWay.Holds.congr {lists' : TwoWay κ α} {key' : α → Option κ} (holds : lists.Holds key l)
    (next : ∀ a ∈ l, lists'.next a = lists.next a) (prev : ∀ a ∈ l, lists'.prev a = lists.prev a)
    (head : lists'.head = lists.head) (keys : ∀ a ∈ l, key' a = key a) : lists'.Holds key' l := by
  rw [TwoWay.holds_iff] at holds ⊢
  refine holds.congr next ?_ head keys
  intro a mem
  simp only [TwoWay.toLinks, TwoWay.prevnextp, prev a mem, keys a mem]

theorem TwoWay.Holds.push (holds : lists.Holds key l) (distinct : l.Nodup) {a : α} (fresh : a ∉ l) {k : κ}
    (key_a : key a = some k) :
    (lists.push k a).Holds key (a :: l) := by
  have not_first : lists.head k ≠ some a := by
    rw [(holds.chain k).head_eq]
    exact fun first => fresh (List.mem_of_mem_filter (List.mem_of_mem_head? first))
  rw [TwoWay.holds_iff] at holds ⊢
  rw [lists.push_toLinks key_a not_first]
  exact holds.push distinct fresh key_a

omit [DecidableEq α] in
/-- The cell behind a cell is another one, with the same key. -/
theorem TwoWay.Holds.next_cell (holds : lists.Holds key l) (distinct : l.Nodup) {a : α} (there : a ∈ l) {k : κ}
    (key_a : key a = some k) :
    lists.next a ≠ some a ∧ ∀ n, lists.next a = some n → key n = some k := by
  obtain ⟨before, after, split⟩ := List.append_of_mem (List.mem_filter.mpr ⟨there, by simp [key_a]⟩ :
    a ∈ l.filter fun b => key b = some k)
  have chain := holds.chain k
  have distinct_k : (before ++ a :: after).Nodup := split ▸ distinct.filter _
  rw [split] at chain
  rw [chain.next_mid.head_eq]
  constructor
  · intro first
    exact (List.nodup_cons.mp (List.nodup_append.mp distinct_k).2.1).1 (List.mem_of_mem_head? first)
  · intro n link
    have mem : n ∈ before ++ a :: after := by simp [List.mem_of_mem_head? link]
    rw [← split] at mem
    simpa using (List.mem_filter.mp mem).2

theorem TwoWay.Holds.unlink (holds : lists.Holds key l) (distinct : l.Nodup) {a : α} (there : a ∈ l) {k : κ}
    (key_a : key a = some k) :
    (lists.unlink k a).Holds key (l.erase a) := by
  obtain ⟨not_self, same_key⟩ := holds.next_cell distinct there key_a
  rw [TwoWay.holds_iff] at holds ⊢
  obtain ⟨links', unlinked, holds'⟩ := holds.unlink distinct there key_a
  rw [lists.unlink_toLinks key_a same_key not_self] at unlinked
  rwa [Option.some.inj unlinked]

omit [DecidableEq κ] [DecidableEq α] in
theorem Prevs.mem {prev : α → Option α} {p : Option α} (prevs : Prevs prev p l) {a : α} (there : a ∈ l) :
    prev a = p ∨ ∃ q ∈ l, prev a = some q := by
  induction l generalizing p with
  | nil => cases there
  | cons b l ih =>
    rcases List.mem_cons.mp there with rfl | later
    · exact .inl prevs.1
    · rcases ih prevs.2 later with first | ⟨q, mem, before⟩
      · exact .inr ⟨b, List.mem_cons_self, first⟩
      · exact .inr ⟨q, List.mem_cons_of_mem b mem, before⟩

/-- Unlinking leaves the pointers of the cells outside alone. -/
theorem TwoWay.Holds.unlink_next (holds : lists.Holds key l) (distinct : l.Nodup) {a : α} (there : a ∈ l) {k : κ}
    (key_a : key a = some k) {b : α} (outside : b ∉ l) :
    (lists.unlink k a).next b = lists.next b := by
  have mem : a ∈ l.filter fun b => key b = some k := List.mem_filter.mpr ⟨there, by simp [key_a]⟩
  unfold TwoWay.unlink
  simp only [setPrev_of_ne lists.prev (holds.next_cell distinct there key_a).1]
  rcases (holds.prevs k).mem mem with first | ⟨q, mem_q, before⟩
  · rw [first]
  · rw [before]
    have other : b ≠ q := fun same => outside (same ▸ List.mem_of_mem_filter mem_q)
    exact Function.update_of_ne other _ _

end

end Ircd.Library
