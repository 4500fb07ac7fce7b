import Ircd.Library.PrevNext

/-! Lists with back pointers that cells enter in the middle: a walk over the places that hold
the pointers, and insertion at the place it ends at.
-/

set_option autoImplicit false

namespace Ircd.Library

section
variable {κ α : Type}

/-- The pointer that a place holds. -/
def Links.load (links : Links κ α) : Ref κ α → Option α
  | .head k => links.head k
  | .next a => links.next a

/-- The cells from a place on, with their back pointers. -/
structure Links.From (links : Links κ α) (ref : Ref κ α) (l : List α) : Prop where
  chain : Chain links.next (links.load ref) l
  back : Back links.prevnextp ref l

/-- The place behind the cells of a list that starts at `ref`. -/
def endRef : Ref κ α → List α → Ref κ α
  | ref, [] => ref
  | _, a :: l => endRef (.next a) l

/-- The walk to the first place whose cell stops it, or to the end. -/
def Links.seek (links : Links κ α) (stop : α → Bool) : Nat → Ref κ α → Option (Ref κ α)
  | 0, _ => none
  | fuel + 1, ref =>
    match links.load ref with
    | none => some ref
    | some a => if stop a then some ref else links.seek stop fuel (.next a)

theorem endRef_next (a : α) (l : List α) : ∃ b ∈ a :: l, endRef (.next a : Ref κ α) l = .next b := by
  induction l generalizing a with
  | nil => exact ⟨a, List.mem_cons_self, rfl⟩
  | cons c l ih =>
    obtain ⟨b, mem, place⟩ := ih c
    exact ⟨b, List.mem_cons_of_mem a mem, place⟩

theorem Links.From.load_endRef {links : Links κ α} {ref : Ref κ α} {l r : List α} (cells : links.From ref (l ++ r)) :
    links.load (endRef ref l) = r.head? := by
  induction l generalizing ref with
  | nil => exact cells.chain.head_eq
  | cons a l ih => exact ih ⟨cells.chain.2, cells.back.2⟩

theorem Links.From.prev_endRef {links : Links κ α} {ref : Ref κ α} {l r : List α} {a : α}
    (cells : links.From ref (l ++ a :: r)) : links.prevnextp a = some (endRef ref l) := by
  induction l generalizing ref with
  | nil => exact cells.back.1
  | cons b l ih => exact ih ⟨cells.chain.2, cells.back.2⟩

/-- The place behind some cells is the first one or the `next` of one of them. -/
theorem endRef_ne {ref : Ref κ α} {l : List α} {b : α} (start : ref ≠ .next b) (outside : b ∉ l) :
    endRef ref l ≠ .next b := by
  cases l with
  | nil => exact start
  | cons c l =>
    obtain ⟨last, last_mem, place⟩ := endRef_next (κ := κ) c l
    rw [endRef, place]
    exact fun same => outside (Ref.next.inj same ▸ last_mem)

/-- The walk ends behind the cells that do not stop it. -/
theorem Links.From.seek {links : Links κ α} {ref : Ref κ α} {l : List α} (cells : links.From ref l)
    (stop : α → Bool) {fuel : Nat} (enough : l.length < fuel) :
    links.seek stop fuel ref = some (endRef ref (l.takeWhile fun a => !stop a)) := by
  induction l generalizing ref fuel with
  | nil =>
    obtain ⟨fuel, rfl⟩ : ∃ n, fuel = n + 1 := ⟨fuel - 1, by simp at enough; omega⟩
    have last : links.load ref = none := cells.chain
    simp [Links.seek, last, endRef]
  | cons a l ih =>
    obtain ⟨fuel, rfl⟩ : ∃ n, fuel = n + 1 := ⟨fuel - 1, by simp at enough; omega⟩
    have here : links.load ref = some a := cells.chain.1
    have rest : links.From (.next a) l := ⟨cells.chain.2, cells.back.2⟩
    cases stops : stop a with
    | true => simp [Links.seek, here, stops, endRef]
    | false => simp [Links.seek, here, stops, endRef, ih rest (by simpa using enough)]

/-- A walk that is given more turns ends at the same place. -/
theorem Links.seek_mono {links : Links κ α} {stop : α → Bool} {fuel : Nat} {ref place : Ref κ α}
    (found : links.seek stop fuel ref = some place) {more : Nat} (enough : fuel ≤ more) :
    links.seek stop more ref = some place := by
  induction fuel generalizing ref more with
  | zero => cases found
  | succ fuel ih =>
    obtain ⟨more, rfl⟩ : ∃ n, more = n + 1 := ⟨more - 1, by omega⟩
    unfold Links.seek at found ⊢
    cases here : links.load ref with
    | none => simpa [here] using found
    | some a =>
      rw [here] at found
      cases stops : stop a with
      | true => simpa [stops] using found
      | false =>
        simp only [stops, Bool.false_eq_true, if_false] at found ⊢
        exact ih found (by omega)

end

section
variable {κ α : Type} [DecidableEq κ] [DecidableEq α]

/-- Write a pointer to a place. -/
def Links.write (links : Links κ α) (ref : Ref κ α) (a : Option α) : Links κ α :=
  match ref with
  | .head k => { links with head := Function.update links.head k a }
  | .next p => { links with next := Function.update links.next p a }

/-- Link a cell in at a place. -/
def Links.insert (links : Links κ α) (ref : Ref κ α) (a : α) : Links κ α :=
  let after := links.load ref
  let links := { links with
    next := Function.update links.next a after
    prevnextp := Function.update links.prevnextp a (some ref) }
  let links := { links with prevnextp := pointBack links.prevnextp after (some (.next a)) }
  links.write ref (some a)

@[simp] theorem Links.write_prevnextp (links : Links κ α) (ref : Ref κ α) (a : Option α) :
    (links.write ref a).prevnextp = links.prevnextp := by
  cases ref <;> rfl

theorem Links.load_write (links : Links κ α) (ref : Ref κ α) (a : Option α) : (links.write ref a).load ref = a := by
  cases ref <;> exact Function.update_self ..

variable {ref : Ref κ α}

theorem Links.load_write_of_ne (links : Links κ α) {place : Ref κ α} (a : Option α) (other : ref ≠ place) :
    (links.write place a).load ref = links.load ref := by
  cases place with
  | head k =>
    cases ref with
    | head k' => exact Function.update_of_ne (fun same => other (congrArg Ref.head same)) _ _
    | next b => rfl
  | next p =>
    cases ref with
    | head k' => rfl
    | next b => exact Function.update_of_ne (fun same => other (congrArg Ref.next same)) _ _

theorem Links.insert_prevnextp (links : Links κ α) (ref : Ref κ α) (a : α) :
    (links.insert ref a).prevnextp =
      pointBack (Function.update links.prevnextp a (some ref)) (links.load ref) (some (.next a)) := by
  simp [Links.insert]

/-- Insertion leaves all other places alone. -/
theorem Links.load_insert_of_ne (links : Links κ α) {place : Ref κ α} {a : α} (other : ref ≠ place)
    (fresh : ref ≠ .next a) : (links.insert place a).load ref = links.load ref := by
  rw [Links.insert, Links.load_write_of_ne _ _ other]
  cases ref with
  | head k => rfl
  | next b => exact Function.update_of_ne (fun same => fresh (congrArg Ref.next same)) _ _

theorem Links.load_insert_self (links : Links κ α) (place : Ref κ α) (a : α) :
    (links.insert place a).load place = some a :=
  Links.load_write _ place (some a)

theorem Links.load_insert_next (links : Links κ α) {place : Ref κ α} {a : α} (fresh : place ≠ .next a) :
    (links.insert place a).load (.next a) = links.load place := by
  rw [Links.insert, Links.load_write_of_ne _ _ fresh.symm]
  exact Function.update_self ..

variable {links : Links κ α}

/-- A cell enters a list behind its first cells. -/
theorem Links.From.insert {l r : List α} {a : α} (cells : links.From ref (l ++ r)) (distinct : (l ++ r).Nodup)
    (fresh : a ∉ l ++ r) (outside : ref ≠ .next a) (start : ∀ b ∈ l ++ r, ref ≠ .next b) :
    (links.insert (endRef ref l) a).From ref (l ++ a :: r) := by
  induction l generalizing ref with
  | nil =>
    have first : links.load ref = r.head? := cells.load_endRef (l := [])
    have not_first : links.load ref ≠ some a := by
      rw [first]
      exact fun same => fresh (List.mem_of_mem_head? same)
    have off : ∀ b ∈ r, b ≠ a := fun b mem same => fresh (same ▸ mem)
    refine ⟨⟨Links.load_insert_self links ref a, ?_⟩, ?_, ?_⟩
    · change Chain _ ((links.insert ref a).load (.next a)) r
      rw [Links.load_insert_next links outside]
      apply cells.chain.congr
      intro b mem
      exact Links.load_insert_of_ne links (start b mem).symm (fun same => off b mem (Ref.next.inj same))
    · change (links.insert ref a).prevnextp a = some ref
      rw [Links.insert_prevnextp, pointBack_of_ne not_first]
      exact Function.update_self ..
    · change Back (links.insert ref a).prevnextp (.next a) r
      rw [Links.insert_prevnextp, first]
      have kept : Back (Function.update links.prevnextp a (some ref)) ref r :=
        cells.back.congr fun b mem => Function.update_of_ne (off b mem) _ _
      exact kept.repoint _ distinct
  | cons b l ih =>
    obtain ⟨fresh_b, distinct⟩ := List.nodup_cons.mp distinct
    have other_a : b ≠ a := fun same => fresh (by simp [same])
    have rest : links.From (.next b) (l ++ r) := ⟨cells.chain.2, cells.back.2⟩
    have inside := ih rest distinct (fun mem => fresh (List.mem_cons_of_mem b mem))
      (fun same => other_a (Ref.next.inj same)) (fun c mem same => fresh_b (Ref.next.inj same ▸ mem))
    obtain ⟨last, last_mem, place⟩ := endRef_next (κ := κ) b l
    have not_place : ref ≠ endRef (.next b) l := by
      rw [place]
      exact start last (List.mem_append_left r last_mem)
    have not_next : links.load (endRef (.next b) l) ≠ some b := by
      rw [rest.load_endRef]
      exact fun same => fresh_b (List.mem_append_right l (List.mem_of_mem_head? same))
    refine ⟨⟨?_, inside.chain⟩, ?_, inside.back⟩
    · change (links.insert (endRef (.next b) l) a).load ref = some b
      rw [Links.load_insert_of_ne links not_place outside]
      exact cells.chain.1
    · change (links.insert (endRef (.next b) l) a).prevnextp b = some ref
      rw [Links.insert_prevnextp, pointBack_of_ne not_next, Function.update_of_ne other_a]
      exact cells.back.1

/-- Insertion changes the links of no cell outside the list but the new one. -/
theorem Links.From.insert_outside {l r : List α} {a b : α} (cells : links.From ref (l ++ r))
    (outside : b ∉ l ++ a :: r) (start : ref ≠ .next b) :
    (links.insert (endRef ref l) a).next b = links.next b ∧
      (links.insert (endRef ref l) a).prevnextp b = links.prevnextp b := by
  have not_a : b ≠ a := fun same => outside (by simp [same])
  have not_place := endRef_ne start (fun mem => outside (List.mem_append_left _ mem))
  have not_after : links.load (endRef ref l) ≠ some b := by
    rw [cells.load_endRef]
    exact fun same => outside (List.mem_append_right l (List.mem_cons_of_mem a (List.mem_of_mem_head? same)))
  refine ⟨Links.load_insert_of_ne links not_place.symm (fun same => not_a (Ref.next.inj same)), ?_⟩
  rw [Links.insert_prevnextp, pointBack_of_ne not_after, Function.update_of_ne not_a]

/-- Clip a cell out of its list, if it is on one. -/
def Links.clip (links : Links κ α) (a : α) : Links κ α :=
  let links := { links with prevnextp := pointBack links.prevnextp (links.next a) (links.prevnextp a) }
  let links :=
    match links.prevnextp a with
    | some ref => links.write ref (links.next a)
    | none => links
  links.clear a

/-- The links without the cell, before its own pointers are cleared. -/
def Links.bypass (links : Links κ α) (place : Ref κ α) (a : α) : Links κ α :=
  { links with prevnextp := pointBack links.prevnextp (links.next a) (some place) }.write place (links.next a)

theorem Links.load_bypass_of_ne (links : Links κ α) {place : Ref κ α} (a : α) (other : ref ≠ place) :
    (links.bypass place a).load ref = links.load ref := by
  rw [Links.bypass, Links.load_write_of_ne _ _ other]
  cases ref <;> rfl

theorem Links.bypass_prevnextp (links : Links κ α) (place : Ref κ α) (a : α) :
    (links.bypass place a).prevnextp = pointBack links.prevnextp (links.next a) (some place) := by
  simp [Links.bypass]

theorem Links.From.bypass {l r : List α} {a : α} (cells : links.From ref (l ++ a :: r))
    (distinct : (l ++ a :: r).Nodup) (start : ∀ b ∈ l ++ a :: r, ref ≠ .next b) :
    (links.bypass (endRef ref l) a).From ref (l ++ r) := by
  induction l generalizing ref with
  | nil =>
    obtain ⟨_, distinct⟩ := List.nodup_cons.mp distinct
    have after : links.next a = r.head? := cells.chain.2.head_eq
    refine ⟨?_, ?_⟩
    · rw [endRef, Links.bypass, Links.load_write]
      apply cells.chain.2.congr
      intro b mem
      exact Links.load_bypass_of_ne links a (start b (List.mem_cons_of_mem a mem)).symm
    · rw [endRef, Links.bypass_prevnextp, after]
      exact cells.back.2.repoint _ distinct
  | cons b l ih =>
    obtain ⟨fresh_b, distinct⟩ := List.nodup_cons.mp distinct
    have rest : links.From (.next b) (l ++ a :: r) := ⟨cells.chain.2, cells.back.2⟩
    have inside := ih rest distinct fun c mem same => fresh_b (Ref.next.inj same ▸ mem)
    obtain ⟨last, last_mem, place⟩ := endRef_next (κ := κ) b l
    have not_place : ref ≠ endRef (.next b) l := by
      rw [place]
      exact start last (List.mem_append_left _ last_mem)
    have not_next : links.next a ≠ some b := by
      rw [(rest.chain.next_mid).head_eq]
      intro same
      exact fresh_b (List.mem_append_right l (List.mem_cons_of_mem a (List.mem_of_mem_head? same)))
    refine ⟨⟨?_, inside.chain⟩, ?_, inside.back⟩
    · change (links.bypass (endRef (.next b) l) a).load ref = some b
      rw [Links.load_bypass_of_ne links a not_place]
      exact cells.chain.1
    · change (links.bypass (endRef (.next b) l) a).prevnextp b = some ref
      rw [Links.bypass_prevnextp, pointBack_of_ne not_next]
      exact cells.back.1

theorem Links.From.clip_eq {l r : List α} {a : α} (cells : links.From ref (l ++ a :: r))
    (distinct : (l ++ a :: r).Nodup) :
    links.clip a = (links.bypass (endRef ref l) a).clear a := by
  have not_self : links.next a ≠ some a := by
    rw [(cells.chain.next_mid).head_eq]
    intro same
    exact (List.nodup_cons.mp (List.nodup_append.mp distinct).2.1).1 (List.mem_of_mem_head? same)
  have place := cells.prev_endRef
  simp only [Links.clip, Links.bypass, pointBack_of_ne not_self, place]

/-- A cell leaves its list. -/
theorem Links.From.clip {k : κ} {l r : List α} {a : α} (cells : links.From (.head k) (l ++ a :: r))
    (distinct : (l ++ a :: r).Nodup) :
    (links.clip a).From (.head k) (l ++ r) := by
  have rest := cells.bypass distinct (fun _ _ => nofun)
  have gone : ∀ b ∈ l ++ r, b ≠ a := by
    intro b mem same
    exact (List.nodup_cons.mp (List.nodup_middle.mp distinct)).1 (same ▸ mem)
  rw [cells.clip_eq distinct]
  exact ⟨rest.chain.congr fun b mem => Function.update_of_ne (gone b mem) _ _,
    rest.back.congr fun b mem => Function.update_of_ne (gone b mem) _ _⟩

/-- Clipping changes the links of no cell outside the list. -/
theorem Links.From.clip_outside {k : κ} {l r : List α} {a b : α} (cells : links.From (.head k) (l ++ a :: r))
    (distinct : (l ++ a :: r).Nodup) (outside : b ∉ l ++ a :: r) :
    (links.clip a).next b = links.next b ∧ (links.clip a).prevnextp b = links.prevnextp b := by
  have not_a : b ≠ a := fun same => outside (by simp [same])
  have not_place : endRef (.head k) l ≠ .next b := endRef_ne nofun (fun mem => outside (List.mem_append_left _ mem))
  have not_after : links.next a ≠ some b := by
    rw [(cells.chain.next_mid).head_eq]
    exact fun same => outside (List.mem_append_right l (List.mem_cons_of_mem a (List.mem_of_mem_head? same)))
  rw [cells.clip_eq distinct]
  refine ⟨(Function.update_of_ne not_a _ _).trans (Links.load_bypass_of_ne links a not_place.symm), ?_⟩
  refine (Function.update_of_ne not_a _ _).trans ?_
  rw [Links.bypass_prevnextp, pointBack_of_ne not_after]

theorem Links.clip_self (links : Links κ α) (a : α) :
    (links.clip a).next a = none ∧ (links.clip a).prevnextp a = none :=
  ⟨Function.update_self .., Function.update_self ..⟩

end

end Ircd.Library
