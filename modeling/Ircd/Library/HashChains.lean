import Mathlib.Data.List.Lookmap
import Mathlib.Data.List.Nodup
import Mathlib.Logic.Function.Basic

/-! Hash tables with chains, over any key, hash and entry.

A table is sound when every entry stands in the chain of its key's hash and no chain has
two entries of one key. Inserting, replacing and sweeping keep a table sound and do to
`lookup` what they do to a map.
-/

set_option autoImplicit false

namespace Ircd.Library

section
variable {κ ι ε : Type} [DecidableEq κ] [DecidableEq ι]

structure Chained (hash : κ → ι) (key : ε → κ) (table : ι → List ε) : Prop where
  placed : ∀ i, ∀ e ∈ table i, hash (key e) = i
  distinct : ∀ i, ((table i).map key).Nodup

def lookup (hash : κ → ι) (key : ε → κ) (table : ι → List ε) (k : κ) : Option ε :=
  (table (hash k)).find? fun e => key e = k

def pushFront (table : ι → List ε) (i : ι) (e : ε) : ι → List ε := Function.update table i (e :: table i)

/-- Write `e` over the first entry of chain `i` that `found` picks. -/
def overwrite (table : ι → List ε) (i : ι) (found : ε → Bool) (e : ε) : ι → List ε :=
  Function.update table i ((table i).lookmap fun x => if found x then some e else none)

/-- Drop the first entry of chain `i` that `found` picks. -/
def eraseFirst (table : ι → List ε) (i : ι) (found : ε → Bool) : ι → List ε :=
  Function.update table i ((table i).eraseP found)

/-- Change or drop every entry. -/
def sweep (f : ε → Option ε) (table : ι → List ε) : ι → List ε := fun i => (table i).filterMap f

variable {hash : κ → ι} {key : ε → κ} {table : ι → List ε}

variable {k : κ} {e : ε}

omit [DecidableEq ι] in
theorem lookup_key (found : lookup hash key table k = some e) : key e = k := by
  simpa using List.find?_some found

omit [DecidableEq κ] [DecidableEq ι] in
theorem chained_empty : Chained hash key fun _ => [] := ⟨by simp, by simp⟩

variable (hash key table) in
theorem lookup_pushFront (e : ε) (k : κ) :
    lookup hash key (pushFront table (hash (key e)) e) k =
      if k = key e then some e else lookup hash key table k := by
  unfold lookup pushFront
  by_cases same : k = key e
  · subst same
    simp
  · rw [if_neg same]
    by_cases chain : hash k = hash (key e)
    · rw [chain, Function.update_self, List.find?_cons_of_neg]
      simp [Ne.symm same]
    · rw [Function.update_of_ne chain]

theorem Chained.pushFront (sound : Chained hash key table) (absent : lookup hash key table (key e) = none) :
    Chained hash key (pushFront table (hash (key e)) e) := by
  refine ⟨fun i x mem_x => ?_, fun i => ?_⟩
  · by_cases here : i = hash (key e)
    · subst here
      rw [Library.pushFront, Function.update_self, List.mem_cons] at mem_x
      rcases mem_x with rfl | old
      · rfl
      · exact sound.placed _ x old
    · rw [Library.pushFront, Function.update_of_ne here] at mem_x
      exact sound.placed i x mem_x
  · by_cases here : i = hash (key e)
    · subst here
      rw [Library.pushFront, Function.update_self, List.map_cons, List.nodup_cons]
      refine ⟨fun mem_key => ?_, sound.distinct _⟩
      obtain ⟨x, mem_x, same⟩ := List.mem_map.mp mem_key
      have differ := List.find?_eq_none.mp absent x mem_x
      simp [same] at differ
    · rw [Library.pushFront, Function.update_of_ne here]
      exact sound.distinct i

variable {l : List ε}

theorem lookmap_key_pos {a : ε} (here : key a = k) :
    (a :: l).lookmap (fun x => if key x = k then some e else none) = e :: l :=
  List.lookmap_cons_some (fun x => if key x = k then some e else none) l (if_pos here)

theorem lookmap_key_neg {a : ε} (here : key a ≠ k) :
    (a :: l).lookmap (fun x => if key x = k then some e else none) =
      a :: l.lookmap fun x => if key x = k then some e else none :=
  List.lookmap_cons_none (fun x => if key x = k then some e else none) l (if_neg here)

theorem find?_lookmap_same (same : key e = k) :
    (l.lookmap fun x => if key x = k then some e else none).find? (fun x => key x = k) =
      (l.find? fun x => key x = k).map fun _ => e := by
  induction l with
  | nil => rfl
  | cons a l ih =>
    by_cases here : key a = k
    · rw [lookmap_key_pos here, List.find?_cons_of_pos (by simp [same]),
        List.find?_cons_of_pos (by simp [here]), Option.map_some]
    · rw [lookmap_key_neg here, List.find?_cons_of_neg (by simp [here]), ih,
        List.find?_cons_of_neg (by simp [here])]

/-- What is written over the first entry that is picked is itself the first that is picked. -/
theorem find?_lookmap_pos {found : ε → Bool} {e' : ε} (first : l.find? found = some e) (picked : found e' = true) :
    (l.lookmap fun x => if found x then some e' else none).find? found = some e' := by
  induction l with
  | nil => cases first
  | cons a l ih =>
    by_cases here : found a = true
    · rw [List.lookmap_cons_some (fun x => if found x then some e' else none) l (if_pos here),
        List.find?_cons_of_pos picked]
    · rw [List.find?_cons_of_neg here] at first
      rw [List.lookmap_cons_none (fun x => if found x then some e' else none) l (if_neg here),
        List.find?_cons_of_neg here]
      exact ih first

theorem find?_lookmap_ne {k' : κ} (same : key e = k) (other : k' ≠ k) :
    (l.lookmap fun x => if key x = k then some e else none).find? (fun x => key x = k') =
      l.find? fun x => key x = k' := by
  induction l with
  | nil => rfl
  | cons a l ih =>
    by_cases here : key a = k
    · rw [lookmap_key_pos here, List.find?_cons_of_neg (by simp [same, Ne.symm other]),
        List.find?_cons_of_neg (by simp [here, Ne.symm other])]
    · rw [lookmap_key_neg here, List.find?_cons, List.find?_cons, ih]

theorem lookup_overwrite (same : key e = k) (k' : κ) :
    lookup hash key (overwrite table (hash k) (fun x => key x = k) e) k' =
      if k' = k then (lookup hash key table k).map fun _ => e else lookup hash key table k' := by
  unfold lookup overwrite
  simp only [decide_eq_true_eq]
  by_cases here : k' = k
  · rw [here, if_pos rfl, Function.update_self, find?_lookmap_same same]
  · rw [if_neg here]
    by_cases chain : hash k' = hash k
    · rw [chain, Function.update_self, find?_lookmap_ne same here]
    · rw [Function.update_of_ne chain]

omit [DecidableEq ι] in
theorem map_key_lookmap (same : key e = k) :
    (l.lookmap fun x => if key x = k then some e else none).map key = l.map key := by
  induction l with
  | nil => rfl
  | cons a l ih =>
    by_cases here : key a = k
    · rw [lookmap_key_pos here, List.map_cons, List.map_cons, same, here]
    · rw [lookmap_key_neg here, List.map_cons, List.map_cons, ih]

theorem map_key_overwrite (same : key e = k) (i : ι) :
    (overwrite table (hash k) (fun x => key x = k) e i).map key = (table i).map key := by
  unfold overwrite
  simp only [decide_eq_true_eq]
  by_cases here : i = hash k
  · rw [here, Function.update_self, map_key_lookmap same]
  · rw [Function.update_of_ne here]

/-- Every key of the new table was there before, in the same chain. -/
theorem mem_overwrite_key (same : key e = k) {i : ι} {x : ε}
    (mem_x : x ∈ overwrite table (hash k) (fun y => key y = k) e i) : ∃ y ∈ table i, key y = key x := by
  have mem_key := List.mem_map_of_mem (f := key) mem_x
  rw [map_key_overwrite same i] at mem_key
  exact List.mem_map.mp mem_key

theorem Chained.overwrite (sound : Chained hash key table) (same : key e = k) :
    Chained hash key (overwrite table (hash k) (fun x => key x = k) e) := by
  refine ⟨fun i x mem_x => ?_, fun i => by rw [map_key_overwrite same i]; exact sound.distinct i⟩
  obtain ⟨y, mem_y, key_y⟩ := mem_overwrite_key same mem_x
  rw [← key_y]
  exact sound.placed i y mem_y

omit [DecidableEq ι] in
/-- With distinct keys nothing of the key is left. -/
theorem find?_eraseP_same (distinct : (l.map key).Nodup) (k : κ) :
    (l.eraseP fun e => key e = k).find? (fun e => key e = k) = none := by
  induction l with
  | nil => rfl
  | cons a l ih =>
    obtain ⟨fresh, distinct⟩ := List.nodup_cons.mp distinct
    by_cases here : key a = k
    · rw [List.eraseP_cons_of_pos (by simp [here]), List.find?_eq_none]
      intro b mem_b same
      have key_b : key b = key a := by
        rw [here]
        simpa using same
      exact fresh (key_b ▸ List.mem_map_of_mem mem_b)
    · rw [List.eraseP_cons_of_neg (by simp [here]), List.find?_cons_of_neg (by simp [here]), ih distinct]

omit [DecidableEq ι] in
theorem find?_eraseP_ne {k' : κ} (other : k' ≠ k) :
    (l.eraseP fun e => key e = k).find? (fun e => key e = k') = l.find? fun e => key e = k' := by
  induction l with
  | nil => rfl
  | cons a l ih =>
    by_cases here : key a = k
    · rw [List.eraseP_cons_of_pos (by simp [here]), List.find?_cons_of_neg (by simp [here, Ne.symm other])]
    · rw [List.eraseP_cons_of_neg (by simp [here]), List.find?_cons, List.find?_cons, ih]

theorem lookup_eraseFirst (sound : Chained hash key table) (k k' : κ) :
    lookup hash key (eraseFirst table (hash k) fun e => key e = k) k' =
      if k' = k then none else lookup hash key table k' := by
  unfold lookup eraseFirst
  by_cases here : k' = k
  · rw [here, if_pos rfl, Function.update_self, find?_eraseP_same (sound.distinct _)]
  · rw [if_neg here]
    by_cases chain : hash k' = hash k
    · rw [chain, Function.update_self, find?_eraseP_ne here]
    · rw [Function.update_of_ne chain]

omit [DecidableEq κ] in
theorem mem_of_mem_eraseFirst {i j : ι} {found : ε → Bool} (mem : e ∈ eraseFirst table i found j) :
    e ∈ table j := by
  unfold eraseFirst at mem
  by_cases here : j = i
  · rw [here, Function.update_self] at mem
    exact here ▸ List.mem_of_mem_eraseP mem
  · rwa [Function.update_of_ne here] at mem

omit [DecidableEq κ] in
theorem Chained.eraseFirst (sound : Chained hash key table) (i : ι) (found : ε → Bool) :
    Chained hash key (eraseFirst table i found) := by
  refine ⟨fun j e mem => sound.placed j e (mem_of_mem_eraseFirst mem), fun j => ?_⟩
  unfold Library.eraseFirst
  by_cases here : j = i
  · rw [here, Function.update_self]
    exact (sound.distinct i).sublist (List.eraseP_sublist.map key)
  · rw [Function.update_of_ne here]
    exact sound.distinct j

section
variable {table : Nat → List ε}

/-- Every entry of the chains below `n`. -/
def entriesBelow (n : Nat) (table : Nat → List ε) : List ε := (List.range n).flatMap table

theorem entriesBelow_succ (n : Nat) : entriesBelow (n + 1) table = entriesBelow n table ++ table n := by
  simp [entriesBelow, List.range_succ]

variable (table) in
theorem length_entriesBelow_update {n i : Nat} (inside : i < n) (l : List ε) :
    (entriesBelow n (Function.update table i l)).length + (table i).length =
      (entriesBelow n table).length + l.length := by
  have outside : ∀ m, m ≤ i → entriesBelow m (Function.update table i l) = entriesBelow m table := by
    intro m below
    unfold entriesBelow
    apply List.flatMap_congr
    intro j mem
    exact Function.update_of_ne (by have := List.mem_range.mp mem; omega) _ _
  induction n with
  | zero => exact absurd inside (Nat.not_lt_zero i)
  | succ n ih =>
    rw [entriesBelow_succ, entriesBelow_succ, List.length_append, List.length_append]
    by_cases last : i = n
    · subst last
      rw [outside i (Nat.le_refl i), Function.update_self]
      omega
    · rw [Function.update_of_ne (Ne.symm last)]
      have := ih (by omega)
      omega

omit [DecidableEq κ] in
theorem Chained.nodup_entriesBelow {hash : κ → Nat} (sound : Chained hash key table) (n : Nat) :
    ((entriesBelow n table).map key).Nodup := by
  induction n with
  | zero => simp [entriesBelow]
  | succ n ih =>
    rw [entriesBelow_succ, List.map_append, List.nodup_append]
    refine ⟨ih, sound.distinct n, ?_⟩
    rintro k mem_k k' mem_k' rfl
    obtain ⟨e, mem_e, key_e⟩ := List.mem_map.mp mem_k
    obtain ⟨e', mem_e', key_e'⟩ := List.mem_map.mp mem_k'
    obtain ⟨j, mem_j, mem_e⟩ := List.mem_flatMap.mp mem_e
    have below := List.mem_range.mp mem_j
    have at_j := sound.placed j e mem_e
    have at_n := sound.placed n e' mem_e'
    rw [key_e] at at_j
    rw [key_e'] at at_n
    omega

end

theorem find?_filterMap_key {f : ε → Option ε} (keeps : ∀ e e', f e = some e' → key e' = key e)
    (distinct : (l.map key).Nodup) (k : κ) :
    (l.filterMap f).find? (fun e => key e = k) = (l.find? fun e => key e = k).bind f := by
  induction l with
  | nil => rfl
  | cons a l ih =>
    obtain ⟨fresh, distinct⟩ := List.nodup_cons.mp distinct
    by_cases here : key a = k
    · rw [List.find?_cons_of_pos (by simp [here]), Option.bind_some]
      cases kept : f a with
      | some b => rw [List.filterMap_cons_some kept, List.find?_cons_of_pos (by simp [keeps a b kept, here])]
      | none =>
        rw [List.filterMap_cons_none kept, List.find?_eq_none]
        intro b mem_b at_k
        obtain ⟨c, mem_c, from_c⟩ := List.mem_filterMap.mp mem_b
        have same : key c = key a := by
          rw [← keeps c b from_c, here]
          simpa using at_k
        exact fresh (same ▸ List.mem_map_of_mem mem_c)
    · rw [List.find?_cons_of_neg (by simp [here]), ← ih distinct]
      cases kept : f a with
      | some b => rw [List.filterMap_cons_some kept, List.find?_cons_of_neg (by simp [keeps a b kept, here])]
      | none => rw [List.filterMap_cons_none kept]

omit [DecidableEq ι] in
theorem lookup_sweep (sound : Chained hash key table) {f : ε → Option ε}
    (keeps : ∀ e e', f e = some e' → key e' = key e) (k : κ) :
    lookup hash key (sweep f table) k = (lookup hash key table k).bind f :=
  find?_filterMap_key keeps (sound.distinct (hash k)) k

omit [DecidableEq κ] [DecidableEq ι] in
theorem Chained.sweep (sound : Chained hash key table) {f : ε → Option ε}
    (keeps : ∀ e e', f e = some e' → key e' = key e) : Chained hash key (sweep f table) := by
  refine ⟨fun i x mem_x => ?_, fun i => ?_⟩
  · obtain ⟨y, mem_y, from_y⟩ := List.mem_filterMap.mp mem_x
    rw [keeps y x from_y]
    exact sound.placed i y mem_y
  · have sub : ∀ l : List ε, ((l.filterMap f).map key).Sublist (l.map key) := by
      intro l
      induction l with
      | nil => exact List.Sublist.refl _
      | cons a l ih =>
        cases kept : f a with
        | none =>
          rw [List.filterMap_cons_none kept]
          exact ih.cons _
        | some b =>
          rw [List.filterMap_cons_some kept, List.map_cons, List.map_cons, keeps a b kept]
          exact ih.cons_cons _
    exact (sound.distinct i).sublist (sub (table i))

end

end Ircd.Library
