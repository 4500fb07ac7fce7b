import Ircd.Library.Chain
import Mathlib.Data.List.Nodup
import Mathlib.Logic.Function.Basic

/-! Families of lists whose cells point back to the pointer that points to them.

Each cell has a `next` pointer and a pointer to the pointer before it, which is the `next`
of another cell or the head of a list. One field serves all lists of the family; a key
says which list a cell is on, if any.
-/

set_option autoImplicit false

namespace Ircd.Library

/-- A place that holds a pointer to a cell. -/
inductive Ref (κ α : Type) where
  | head (k : κ)
  | next (a : α)

structure Links (κ α : Type) where
  next : α → Option α
  prevnextp : α → Option (Ref κ α)
  head : κ → Option α

/-- The back pointers along a list whose first cell is pointed to from `ref`. -/
def Back {κ α : Type} (prevnextp : α → Option (Ref κ α)) : Ref κ α → List α → Prop
  | _, [] => True
  | ref, a :: l => prevnextp a = some ref ∧ Back prevnextp (.next a) l

section
variable {κ α : Type} [DecidableEq κ] [DecidableEq α]

/-- Write through a back pointer; there is nothing to write to behind a null pointer. -/
def Links.store (links : Links κ α) (ref : Option (Ref κ α)) (a : Option α) : Option (Links κ α) :=
  match ref with
  | none => none
  | some (.head k) => some { links with head := Function.update links.head k a }
  | some (.next p) => some { links with next := Function.update links.next p a }

/-- Set the back pointer of a cell, if there is one. -/
def pointBack (prevnextp : α → Option (Ref κ α)) (a : Option α) (ref : Option (Ref κ α)) : α → Option (Ref κ α) :=
  match a with
  | some a => Function.update prevnextp a ref
  | none => prevnextp

def Links.unlink (links : Links κ α) (a : α) : Option (Links κ α) :=
  let links := { links with prevnextp := pointBack links.prevnextp (links.next a) (links.prevnextp a) }
  links.store (links.prevnextp a) (links.next a)

def Links.push (links : Links κ α) (k : κ) (a : α) : Links κ α :=
  let links := { links with next := Function.update links.next a (links.head k) }
  let links := { links with prevnextp := pointBack links.prevnextp (links.next a) (some (.next a)) }
  { links with
    prevnextp := Function.update links.prevnextp a (some (.head k))
    head := Function.update links.head k (some a) }

def Links.clear (links : Links κ α) (a : α) : Links κ α :=
  { links with next := Function.update links.next a none, prevnextp := Function.update links.prevnextp a none }

/-- The cells of `l` with key `k` are, in order, the list of `k`. -/
structure Links.Holds (links : Links κ α) (key : α → Option κ) (l : List α) : Prop where
  chain : ∀ k, Chain links.next (links.head k) (l.filter fun a => key a = some k)
  back : ∀ k, Back links.prevnextp (.head k) (l.filter fun a => key a = some k)

variable {prevnextp : α → Option (Ref κ α)} {l : List α}

omit [DecidableEq κ] [DecidableEq α] in
theorem Back.congr {prevnextp' : α → Option (Ref κ α)} {ref : Ref κ α} (back : Back prevnextp ref l)
    (same : ∀ a ∈ l, prevnextp' a = prevnextp a) : Back prevnextp' ref l := by
  induction l generalizing ref with
  | nil => trivial
  | cons a l ih =>
    refine ⟨(same a List.mem_cons_self).trans back.1, ?_⟩
    exact ih back.2 fun b mem => same b (List.mem_cons_of_mem a mem)

omit [DecidableEq κ] [DecidableEq α] in
/-- A cell is pointed to by the cell before it. -/
theorem Back.at_mid {ref : Ref κ α} {r : List α} {p a : α} (back : Back prevnextp ref (l ++ p :: a :: r)) :
    prevnextp a = some (.next p) := by
  induction l generalizing ref with
  | nil => exact back.2.1
  | cons b l ih => exact ih back.2

omit [DecidableEq κ] [DecidableEq α] in
/-- A cell is pointed to from the place before the list or from a cell of it. -/
theorem Back.mem {ref : Ref κ α} (back : Back prevnextp ref l) {a : α} (there : a ∈ l) :
    prevnextp a = some ref ∨ ∃ p ∈ l, prevnextp a = some (.next p) := by
  induction l generalizing ref with
  | nil => cases there
  | cons b l ih =>
    rcases List.mem_cons.mp there with rfl | later
    · exact .inl back.1
    · rcases ih back.2 later with first | ⟨p, mem, before⟩
      · exact .inr ⟨b, List.mem_cons_self, first⟩
      · exact .inr ⟨p, List.mem_cons_of_mem b mem, before⟩

omit [DecidableEq κ] in
theorem pointBack_of_ne {n : Option α} {ref : Option (Ref κ α)} {a : α} (other : n ≠ some a) :
    pointBack prevnextp n ref a = prevnextp a := by
  cases n with
  | none => rfl
  | some n => exact Function.update_of_ne (fun same => other (congrArg some same.symm)) _ _

omit [DecidableEq κ] in
/-- The first cell of a list is pointed to from elsewhere. -/
theorem Back.repoint {ref : Ref κ α} (ref' : Ref κ α) (back : Back prevnextp ref l) (distinct : l.Nodup) :
    Back (pointBack prevnextp l.head? (some ref')) ref' l := by
  cases l with
  | nil => trivial
  | cons n l =>
    refine ⟨Function.update_self .., back.2.congr fun b mem => ?_⟩
    have other : b ≠ n := fun same => (List.nodup_cons.mp distinct).1 (same ▸ mem)
    exact Function.update_of_ne other _ _

omit [DecidableEq κ] in
/-- A cell is cut out: the cell behind it takes over its back pointer. -/
theorem Back.cut {ref : Ref κ α} {r : List α} {a : α} (back : Back prevnextp ref (l ++ a :: r))
    (distinct : (l ++ a :: r).Nodup) :
    Back (pointBack prevnextp r.head? (prevnextp a)) ref (l ++ r) := by
  induction l generalizing ref with
  | nil =>
    rw [back.1]
    exact back.2.repoint _ (List.nodup_cons.mp distinct).2
  | cons b l ih =>
    obtain ⟨fresh, distinct⟩ := List.nodup_cons.mp distinct
    have other : r.head? ≠ some b := by
      intro first
      exact fresh (List.mem_append_right l (List.mem_cons_of_mem a (List.mem_of_mem_head? first)))
    exact ⟨(pointBack_of_ne other).trans back.1, ih back.2 distinct⟩

variable {links : Links κ α} {key : α → Option κ}

omit [DecidableEq α] in
/-- Only the cells of the list matter, and their keys. -/
theorem Links.Holds.congr {links' : Links κ α} {key' : α → Option κ} (holds : links.Holds key l)
    (next : ∀ a ∈ l, links'.next a = links.next a) (prevnextp : ∀ a ∈ l, links'.prevnextp a = links.prevnextp a)
    (head : links'.head = links.head) (keys : ∀ a ∈ l, key' a = key a) : links'.Holds key' l := by
  have filter_eq : ∀ k, (l.filter fun a => key' a = some k) = l.filter fun a => key a = some k := by
    intro k
    apply List.filter_congr
    intro a mem
    rw [keys a mem]
  refine ⟨fun k => ?_, fun k => ?_⟩
  · rw [filter_eq, head]
    exact (holds.chain k).congr fun a mem => next a (List.mem_of_mem_filter mem)
  · rw [filter_eq]
    exact (holds.back k).congr fun a mem => prevnextp a (List.mem_of_mem_filter mem)

omit [DecidableEq α] in
theorem Links.Holds.cons_of_none (holds : links.Holds key l) {a : α} (none_a : key a = none) :
    links.Holds key (a :: l) := by
  have filter_eq : ∀ k, ((a :: l).filter fun a => key a = some k) = l.filter fun a => key a = some k := fun k =>
    List.filter_cons_of_neg (by simp [none_a])
  exact ⟨fun k => by rw [filter_eq]; exact holds.chain k, fun k => by rw [filter_eq]; exact holds.back k⟩

theorem Links.Holds.push (holds : links.Holds key l) (distinct : l.Nodup) {a : α} (fresh : a ∉ l) {k : κ}
    (key_a : key a = some k) :
    (links.push k a).Holds key (a :: l) := by
  have fresh_in : ∀ k', a ∉ l.filter fun b => key b = some k' := fun k' mem => fresh (List.mem_of_mem_filter mem)
  have next_eq : ∀ b, b ≠ a → (links.push k a).next b = links.next b := fun b other =>
    Function.update_of_ne other _ _
  have prev_eq : ∀ b, b ≠ a → (links.push k a).prevnextp b =
      pointBack links.prevnextp (links.head k) (some (.next a)) b := by
    intro b other
    simp only [Links.push, Function.update_self]
    exact Function.update_of_ne other _ _
  have off : ∀ k', ∀ b ∈ l.filter (fun b => key b = some k'), b ≠ a := fun k' b mem same => fresh_in k' (same ▸ mem)
  refine ⟨fun k' => ?_, fun k' => ?_⟩
  · have kept := (holds.chain k').congr fun b mem => next_eq b (off k' b mem)
    by_cases same : k' = k
    · subst same
      rw [List.filter_cons_of_pos (by simp [key_a])]
      refine ⟨Function.update_self .., ?_⟩
      have link : (links.push k' a).next a = links.head k' := Function.update_self ..
      rwa [link]
    · rw [List.filter_cons_of_neg (by simp [key_a, Ne.symm same])]
      have head_eq : (links.push k a).head k' = links.head k' := Function.update_of_ne same _ _
      rwa [head_eq]
  · by_cases same : k' = k
    · subst same
      rw [List.filter_cons_of_pos (by simp [key_a])]
      refine ⟨Function.update_self .., ?_⟩
      have moved := Back.repoint (.next a) (holds.back k') (distinct.filter _)
      rw [← (holds.chain k').head_eq] at moved
      exact moved.congr fun b mem => prev_eq b (off k' b mem)
    · rw [List.filter_cons_of_neg (by simp [key_a, Ne.symm same])]
      apply (holds.back k').congr
      intro b mem
      rw [prev_eq b (off k' b mem)]
      apply pointBack_of_ne
      -- The first cell of the other list has the other key.
      intro first
      rw [(holds.chain k).head_eq] at first
      have key_b : key b = some k := by simpa using (List.mem_filter.mp (List.mem_of_mem_head? first)).2
      have key_b' : key b = some k' := by simpa using (List.mem_filter.mp mem).2
      rw [key_b] at key_b'
      exact same (Option.some.inj key_b').symm

omit [DecidableEq κ] in
theorem filter_erase (distinct : l.Nodup) (p : α → Bool) (a : α) :
    (l.erase a).filter p = (l.filter p).erase a := by
  rw [distinct.erase_eq_filter, (distinct.filter p).erase_eq_filter, List.filter_filter, List.filter_filter]
  apply List.filter_congr
  intro b _
  exact Bool.and_comm _ _

theorem Links.Holds.erase_of_none (holds : links.Holds key l) (distinct : l.Nodup) {a : α} (none_a : key a = none) :
    links.Holds key (l.erase a) := by
  have filter_eq : ∀ k, ((l.erase a).filter fun a => key a = some k) = l.filter fun a => key a = some k := by
    intro k
    rw [filter_erase distinct, List.erase_of_not_mem (by simp [none_a])]
  exact ⟨fun k => by rw [filter_eq]; exact holds.chain k, fun k => by rw [filter_eq]; exact holds.back k⟩

theorem Links.Holds.unlink (holds : links.Holds key l) (distinct : l.Nodup) {a : α} (there : a ∈ l) {k : κ}
    (key_a : key a = some k) :
    ∃ links', links.unlink a = some links' ∧ links'.Holds key (l.erase a) := by
  obtain ⟨l₁, l₂, split⟩ := List.append_of_mem (List.mem_filter.mpr ⟨there, by simp [key_a]⟩ :
    a ∈ l.filter fun b => key b = some k)
  have chain := holds.chain k
  have back := holds.back k
  have distinct_k : (l₁ ++ a :: l₂).Nodup := split ▸ distinct.filter _
  rw [split] at chain back
  have next_a : links.next a = l₂.head? := chain.next_mid.head_eq
  have not_self : links.next a ≠ some a := by
    intro self
    rw [next_a] at self
    have later := (List.nodup_append.mp distinct_k).2.1
    exact (List.nodup_cons.mp later).1 (List.mem_of_mem_head? self)
  have keys : ∀ b ∈ l₁ ++ a :: l₂, key b = some k := by
    intro b mem
    rw [← split] at mem
    simpa using (List.mem_filter.mp mem).2
  have others : ∀ k', k' ≠ k → ((l.erase a).filter fun b => key b = some k') = l.filter fun b => key b = some k' := by
    intro k' other
    rw [filter_erase distinct, List.erase_of_not_mem (by simp [key_a, Ne.symm other])]
  have here : ((l.erase a).filter fun b => key b = some k) = l₁ ++ l₂ := by
    rw [filter_erase distinct, split, List.erase_append_right _ (fun mem => ?_), List.erase_cons_head]
    exact (List.nodup_append.mp distinct_k).2.2 a mem a List.mem_cons_self rfl
  have elsewhere : ∀ k', k' ≠ k → ∀ b ∈ l.filter (fun b => key b = some k'), b ∉ l₁ ++ a :: l₂ := by
    intro k' other b mem mem'
    have key_b : key b = some k' := by simpa using (List.mem_filter.mp mem).2
    rw [keys b mem'] at key_b
    exact other (Option.some.inj key_b).symm
  -- The back pointers do not depend on where the cell was pointed to from.
  have backs : ∀ k', Back (pointBack links.prevnextp (links.next a) (links.prevnextp a)) (.head k')
      ((l.erase a).filter fun b => key b = some k') := by
    intro k'
    by_cases same : k' = k
    · subst same
      rw [here, next_a]
      exact back.cut distinct_k
    · rw [others k' same]
      apply (holds.back k').congr
      intro b mem
      apply pointBack_of_ne
      intro first
      rw [next_a] at first
      apply elsewhere k' same b mem
      exact List.mem_append_right _ (List.mem_cons_of_mem a (List.mem_of_mem_head? first))
  unfold Links.unlink
  simp only [pointBack_of_ne not_self]
  rcases List.eq_nil_or_concat' l₁ with rfl | ⟨l₀, p, rfl⟩
  · have from_head : links.prevnextp a = some (.head k) := back.1
    rw [from_head] at backs ⊢
    refine ⟨_, rfl, fun k' => ?_, backs⟩
    by_cases same : k' = k
    · subst same
      rw [here]
      simp only [Function.update_self]
      exact chain.2
    · rw [others k' same]
      simp only [Function.update_of_ne same]
      exact holds.chain k'
  · have joined : ∀ r, l₀ ++ [p] ++ r = l₀ ++ p :: r := fun r => by simp
    rw [joined] at chain back distinct_k here
    have from_p : links.prevnextp a = some (.next p) := back.at_mid
    rw [from_p] at backs ⊢
    refine ⟨_, rfl, fun k' => ?_, backs⟩
    by_cases same : k' = k
    · subst same
      rw [here]
      exact chain.unlink distinct_k
    · rw [others k' same]
      apply (holds.chain k').congr
      intro b mem
      have other : b ≠ p := fun eq => elsewhere k' same b mem (by simp [eq])
      exact Function.update_of_ne other _ _

/-- Unlinking leaves the pointers of the cells outside alone. -/
theorem Links.Holds.unlink_outside {links' : Links κ α} (holds : links.Holds key l) {a : α} (there : a ∈ l)
    {k : κ} (key_a : key a = some k) (unlinked : links.unlink a = some links') {b : α} (outside : b ∉ l) :
    links'.next b = links.next b ∧ links'.prevnextp b = links.prevnextp b := by
  have mem : a ∈ l.filter fun b => key b = some k := List.mem_filter.mpr ⟨there, by simp [key_a]⟩
  have inside {c : α} (mem_c : c ∈ l.filter fun b => key b = some k) : b ≠ c :=
    fun same => outside (same ▸ List.mem_of_mem_filter mem_c)
  have after : links.next a ≠ some b := fun link => inside ((holds.chain k).next_mem mem link) rfl
  have not_self : links.next a ≠ some a ∨ links.next a = some a := (em _).symm
  have back : pointBack links.prevnextp (links.next a) (links.prevnextp a) a = links.prevnextp a := by
    rcases not_self with other | self
    · exact pointBack_of_ne other
    · rw [self]
      exact Function.update_self ..
  unfold Links.unlink at unlinked
  simp only [back] at unlinked
  rcases (holds.back k).mem mem with first | ⟨p, mem_p, before⟩
  · rw [first] at unlinked
    cases unlinked
    exact ⟨rfl, pointBack_of_ne after⟩
  · rw [before] at unlinked
    cases unlinked
    exact ⟨Function.update_of_ne (inside mem_p) _ _, pointBack_of_ne after⟩

/-- So does entering a cell. -/
theorem Links.Holds.push_outside (holds : links.Holds key l) (k : κ) {a b : α} (other : b ≠ a) (outside : b ∉ l) :
    (links.push k a).next b = links.next b ∧ (links.push k a).prevnextp b = links.prevnextp b := by
  have first : links.head k ≠ some b := by
    rw [(holds.chain k).head_eq]
    exact fun head => outside (List.mem_of_mem_filter (List.mem_of_mem_head? head))
  refine ⟨Function.update_of_ne other _ _, ?_⟩
  simp only [Links.push, Function.update_self]
  rw [Function.update_of_ne other, pointBack_of_ne first]

end

end Ircd.Library
