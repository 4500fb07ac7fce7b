import Mathlib.Data.List.Basic
import Mathlib.Order.MinMax

/-! A log that is shipped to a follower.

The entries of the log have growing keys, and a follower takes those above the key it had last. Entries that
are not to be kept raise that key and nothing else counts of them. A follower that is told to start anew has
nothing any more.
-/

set_option autoImplicit false

namespace Ircd.Library

/-- What is on its way to a follower. -/
inductive Shipment (α : Type) where
  | entry (a : α)
  | anew
  | notice

/-- Nothing in a list tells to start anew. -/
def Shipment.Steady {α : Type} (shipments : List (Shipment α)) : Prop := Shipment.anew ∉ shipments

section
variable {α : Type} (key : α → Nat) (keep : α → Bool)

/-- The last key of a follower and the entries it has taken since it started. -/
def follow : Nat × List α → Shipment α → Nat × List α
  | (last, taken), .entry a => if last < key a then (key a, taken ++ [a]) else (last, taken)
  | _, .anew => (0, [])
  | follower, .notice => follower

/-- The shipments go on where a follower stands that has taken all that is to be kept up to a key, and where
they leave it. -/
inductive Ships (log : List α) : Nat → List (Shipment α) → Nat → Prop
  | done {last : Nat} : Ships log last [] last
  | entry {last final : Nat} {a : α} {rest : List (Shipment α)} (logged : a ∈ log)
      (next : ∀ b ∈ log, keep b = true → last < key b → key a ≤ key b)
      (behind : Ships log (max last (key a)) rest final) : Ships log last (.entry a :: rest) final
  | anew {last final : Nat} {rest : List (Shipment α)} (behind : Ships log 0 rest final) :
      Ships log last (.anew :: rest) final
  | notice {last final : Nat} {rest : List (Shipment α)} (behind : Ships log last rest final) :
      Ships log last (.notice :: rest) final

/-- What a log keeps of its entries up to a key. -/
def upTo (log : List α) (last : Nat) : List α := (log.filter keep).filter fun a => key a ≤ last

/-- A follower has what the log keeps up to its last key. -/
def Mirrors (log : List α) (follower : Nat × List α) : Prop :=
  follower.2.filter keep = upTo key keep log follower.1

end

section
variable {α : Type} {key : α → Nat} {keep : α → Bool} {log : List α} {last final : Nat}

theorem filter_split {entries : List α} (increasing : entries.Pairwise (key · < key ·)) (last : Nat) :
    entries.filter (fun a => key a ≤ last) ++ entries.filter (fun a => last < key a) = entries := by
  induction entries with
  | nil => rfl
  | cons a entries ih =>
    obtain ⟨above, increasing⟩ := List.pairwise_cons.mp increasing
    by_cases low : key a ≤ last
    · rw [List.filter_cons, List.filter_cons, decide_eq_true low, decide_eq_false (by omega : ¬last < key a),
        if_pos rfl, if_neg Bool.false_ne_true, List.cons_append, ih increasing]
    · -- All that is behind is higher still.
      have higher (b : α) (mem : b ∈ a :: entries) : last < key b := by
        rcases List.mem_cons.mp mem with rfl | mem
        · omega
        · have := above b mem
          omega
      have none_left : (a :: entries).filter (fun b => key b ≤ last) = [] :=
        List.filter_eq_nil_iff.mpr fun b mem => by simpa using higher b mem
      have all_left : (a :: entries).filter (fun b => last < key b) = a :: entries :=
        List.filter_eq_self.mpr fun b mem => by simpa using higher b mem
      rw [none_left, all_left, List.nil_append]

theorem filter_le_prefix {entries : List α} (increasing : entries.Pairwise (key · < key ·)) (last : Nat) :
    entries.filter (fun a => key a ≤ last) <+: entries :=
  ⟨_, filter_split increasing last⟩

/-- Growing keys tell the entries apart. -/
theorem eq_of_key {entries : List α} (increasing : entries.Pairwise (key · < key ·)) {a b : α}
    (first : a ∈ entries) (second : b ∈ entries) (same : key a = key b) : a = b := by
  induction increasing with
  | nil => cases first
  | cons above _ ih =>
    rcases List.mem_cons.mp first with rfl | before <;> rcases List.mem_cons.mp second with rfl | behind
    · rfl
    · exact absurd same (above b behind).ne
    · exact absurd same (above a before).ne'
    · exact ih before behind

theorem filter_le_succ {entries : List α} (increasing : entries.Pairwise (key · < key ·)) {a : α}
    (mem : a ∈ entries) (higher : last < key a) (next : ∀ b ∈ entries, last < key b → key a ≤ key b) :
    entries.filter (fun b => key b ≤ key a) = entries.filter (fun b => key b ≤ last) ++ [a] := by
  obtain ⟨front, back, rfl⟩ := List.append_of_mem mem
  obtain ⟨-, rest, apart⟩ := List.pairwise_append.mp increasing
  obtain ⟨above, -⟩ := List.pairwise_cons.mp rest
  have low (b : α) (here : b ∈ front) : key b ≤ last := by
    have below := apart b here a List.mem_cons_self
    by_contra higher
    have := next b (List.mem_append_left _ here) (by omega)
    omega
  have front_low : front.filter (fun b => key b ≤ last) = front :=
    List.filter_eq_self.mpr fun b here => by simpa using low b here
  have front_below : front.filter (fun b => key b ≤ key a) = front :=
    List.filter_eq_self.mpr fun b here => by
      have := low b here
      simp only [decide_eq_true_eq]
      omega
  have back_last : back.filter (fun b => key b ≤ last) = [] :=
    List.filter_eq_nil_iff.mpr fun b here => by
      have := above b here
      simp only [decide_eq_true_eq]
      omega
  have back_above : back.filter (fun b => key b ≤ key a) = [] :=
    List.filter_eq_nil_iff.mpr fun b here => by
      have := above b here
      simp only [decide_eq_true_eq]
      omega
  rw [List.filter_append, List.filter_append, front_low, front_below, List.filter_cons, List.filter_cons,
    decide_eq_true (Nat.le_refl _), decide_eq_false (by omega : ¬key a ≤ last), if_pos rfl,
    if_neg Bool.false_ne_true, back_last, back_above, List.append_nil]

theorem Mirrors.kept_prefix {follower : Nat × List α} (mirrors : Mirrors key keep log follower)
    (increasing : log.Pairwise (key · < key ·)) : follower.2.filter keep <+: log.filter keep := by
  rw [mirrors]
  exact filter_le_prefix (increasing.filter _) _

theorem Mirrors.all {follower : Nat × List α} (mirrors : Mirrors key keep log follower)
    (highest : ∀ a ∈ log, keep a = true → key a ≤ follower.1) : follower.2.filter keep = log.filter keep := by
  rw [mirrors]
  refine List.filter_eq_self.mpr fun a mem => ?_
  obtain ⟨logged, kept⟩ := List.mem_filter.mp mem
  simpa using highest a logged kept

/-- An entry that comes to the end of the log is above what a follower has. -/
theorem Mirrors.logged {taken : List α} (mirrors : Mirrors key keep log (last, taken)) {a : α}
    (higher : last < key a) : Mirrors key keep (log ++ [a]) (last, taken) := by
  have none_more : ([a].filter keep).filter (fun b => key b ≤ last) = [] := by
    refine List.filter_eq_nil_iff.mpr fun b mem => ?_
    rw [List.mem_singleton.mp (List.mem_of_mem_filter mem)]
    simpa using higher
  unfold Mirrors upTo at mirrors ⊢
  rw [List.filter_append, List.filter_append, none_more, List.append_nil]
  exact mirrors

/-- A follower that takes the next entry. -/
theorem Mirrors.entry {taken : List α} (mirrors : Mirrors key keep log (last, taken))
    (increasing : log.Pairwise (key · < key ·)) {a : α} (logged : a ∈ log)
    (next : ∀ b ∈ log, keep b = true → last < key b → key a ≤ key b) :
    Mirrors key keep log (follow key (last, taken) (.entry a)) := by
  rw [follow]
  by_cases higher : last < key a
  · rw [if_pos higher]
    unfold Mirrors upTo at mirrors ⊢
    dsimp only at mirrors ⊢
    rw [List.filter_append, mirrors]
    cases kept : keep a
    · -- No entry that is kept has the key of one that is not.
      rw [List.filter_singleton, kept, cond_false, List.append_nil]
      refine List.filter_congr fun b mem => ?_
      obtain ⟨there, wanted⟩ := List.mem_filter.mp mem
      have other : key b ≠ key a := by
        intro same
        rw [eq_of_key increasing there logged same, kept] at wanted
        cases wanted
      have := next b there wanted
      rw [decide_eq_decide]
      omega
    · rw [List.filter_singleton, kept, cond_true]
      refine (filter_le_succ (increasing.filter _) (List.mem_filter.mpr ⟨logged, kept⟩) higher ?_).symm
      intro b mem above
      obtain ⟨there, wanted⟩ := List.mem_filter.mp mem
      exact next b there wanted above
  · rw [if_neg higher]
    exact mirrors

/-- A follower that takes what comes first. -/
theorem Ships.taken {shipment : Shipment α} {rest : List (Shipment α)}
    (ships : Ships key keep log last (shipment :: rest) final) (increasing : log.Pairwise (key · < key ·))
    (positive : ∀ a ∈ log, 0 < key a) {taken : List α} (mirrors : Mirrors key keep log (last, taken)) :
    Ships key keep log (follow key (last, taken) shipment).1 rest final ∧
      Mirrors key keep log (follow key (last, taken) shipment) := by
  cases ships with
  | @entry _ _ a _ logged next behind =>
    refine ⟨?_, mirrors.entry increasing logged next⟩
    rw [follow]
    by_cases higher : last < key a
    · rw [if_pos higher]
      rwa [max_eq_right higher.le] at behind
    · rw [if_neg higher]
      rwa [max_eq_left (not_lt.mp higher)] at behind
  | anew behind =>
    refine ⟨behind, (List.filter_eq_nil_iff.mpr fun a mem => ?_).symm⟩
    have := positive a (List.mem_of_mem_filter mem)
    change ¬decide (key a ≤ 0) = true
    rw [decide_eq_true_eq]
    omega
  | notice behind => exact ⟨behind, mirrors⟩

variable {shipments : List (Shipment α)}

theorem Ships.mirrors (ships : Ships key keep log last shipments final)
    (increasing : log.Pairwise (key · < key ·)) (positive : ∀ a ∈ log, 0 < key a) {taken : List α}
    (mirrors : Mirrors key keep log (last, taken)) :
    (shipments.foldl (follow key) (last, taken)).1 = final ∧
      Mirrors key keep log (shipments.foldl (follow key) (last, taken)) := by
  induction shipments generalizing last taken with
  | nil =>
    cases ships
    exact ⟨rfl, mirrors⟩
  | cons shipment rest ih =>
    obtain ⟨behind, now⟩ := ships.taken increasing positive mirrors
    exact ih behind now

/-- A follower stands at the start or at an entry of the log. -/
theorem Ships.stands {shipment : Shipment α} {rest : List (Shipment α)}
    (ships : Ships key keep log last (shipment :: rest) final) (taken : List α)
    (stands : last = 0 ∨ ∃ a ∈ log, key a = last) :
    (follow key (last, taken) shipment).1 = 0 ∨ ∃ a ∈ log, key a = (follow key (last, taken) shipment).1 := by
  cases ships with
  | @entry _ _ a _ logged _ _ =>
    rw [follow]
    split_ifs
    · exact .inr ⟨a, logged, rfl⟩
    · exact stands
  | anew _ => exact .inl rfl
  | notice _ => exact stands

theorem Ships.append {more : List (Shipment α)} {between : Nat}
    (ships : Ships key keep log last shipments between) (behind : Ships key keep log between more final) :
    Ships key keep log last (shipments ++ more) final := by
  induction ships with
  | done => exact behind
  | entry logged next _ ih => exact .entry logged next (ih behind)
  | anew _ ih => exact .anew (ih behind)
  | notice _ ih => exact .notice (ih behind)

theorem Ships.notices (quiet : ∀ shipment ∈ shipments, shipment = .notice) :
    Ships key keep log last shipments last := by
  induction shipments with
  | nil => exact .done
  | cons shipment rest ih =>
    rw [quiet shipment List.mem_cons_self]
    exact .notice (ih fun other mem => quiet other (List.mem_cons_of_mem _ mem))

theorem Ships.le (ships : Ships key keep log last shipments final) (steady : Shipment.Steady shipments) :
    last ≤ final := by
  induction ships with
  | done => exact Nat.le_refl _
  | entry _ _ _ ih => exact (le_max_left _ _).trans (ih fun mem => steady (List.mem_cons_of_mem _ mem))
  | anew _ _ => exact absurd List.mem_cons_self steady
  | notice _ ih => exact ih fun mem => steady (List.mem_cons_of_mem _ mem)

/-- An entry that comes to the end of the log changes nothing for what is on its way. -/
theorem Ships.logged (ships : Ships key keep log last shipments final) {b : α}
    (highest : ∀ a ∈ log, key a < key b) : Ships key keep (log ++ [b]) last shipments final := by
  induction ships with
  | done => exact .done
  | @entry last final a rest logged next _ ih =>
    refine .entry (List.mem_append_left _ logged) (fun c mem kept above => ?_) ih
    rcases List.mem_append.mp mem with old | new
    · exact next c old kept above
    · rw [List.mem_singleton.mp new]
      exact (highest a logged).le
  | anew _ ih => exact .anew ih
  | notice _ ih => exact .notice ih

/-- The place of a follower that has taken some entries as well. -/
def placeAfter (key : α → Nat) (last : Nat) (entries : List α) : Nat :=
  entries.foldl (fun last a => max last (key a)) last

theorem le_placeAfter (last : Nat) (entries : List α) :
    last ≤ placeAfter key last entries ∧ ∀ a ∈ entries, key a ≤ placeAfter key last entries := by
  induction entries generalizing last with
  | nil => exact ⟨Nat.le_refl _, fun _ mem => absurd mem List.not_mem_nil⟩
  | cons a entries ih =>
    obtain ⟨start, inside⟩ := ih (max last (key a))
    refine ⟨(le_max_left _ _).trans start, fun b mem => ?_⟩
    rcases List.mem_cons.mp mem with rfl | mem
    · exact (le_max_right _ _).trans start
    · exact inside b mem

/-- A part of what is kept, for a follower that has all that is before it. -/
theorem Ships.part {front part back : List α} (whole : log.filter keep = front ++ part ++ back)
    (increasing : log.Pairwise (key · < key ·)) (there : ∀ a ∈ front, key a ≤ last) :
    Ships key keep log last (part.map .entry) (placeAfter key last part) := by
  induction part generalizing front last with
  | nil => exact .done
  | cons a part ih =>
    have mem {b : α} (inside : b ∈ front ++ a :: part ++ back) : b ∈ log :=
      List.mem_of_mem_filter (whole ▸ inside)
    have sorted : (front ++ a :: part ++ back).Pairwise (key · < key ·) := whole ▸ increasing.filter _
    rw [List.append_assoc, List.cons_append] at sorted
    obtain ⟨-, rest, -⟩ := List.pairwise_append.mp sorted
    obtain ⟨above, -⟩ := List.pairwise_cons.mp rest
    have later := @ih (max last (key a)) (front ++ [a])
    refine .entry (mem (by simp)) (fun b logged kept higher => ?_) (later ?_ ?_)
    · have inside : b ∈ front ++ a :: part ++ back := whole ▸ List.mem_filter.mpr ⟨logged, kept⟩
      rw [List.append_assoc, List.cons_append] at inside
      rcases List.mem_append.mp inside with here | behind
      · have := there b here
        omega
      · rcases List.mem_cons.mp behind with rfl | behind
        · exact Nat.le_refl _
        · exact (above b behind).le
    · rw [whole]
      simp
    · intro b inside
      rcases List.mem_append.mp inside with here | last_one
      · exact (there b here).trans (le_max_left _ _)
      · rw [List.mem_singleton.mp last_one]
        exact le_max_right _ _

end

end Ircd.Library
