import Mathlib.Data.Fintype.Basic
import Mathlib.Logic.Function.Basic

/-! Tries: a node has a value and a child for each key, and a value is kept under a path of keys.

Erasing a path drops the nodes that it leaves bare.
-/

set_option autoImplicit false

namespace Ircd.Library

inductive Trie (Key Value : Type) where
  | node (value : Option Value) (child : Key → Option (Trie Key Value))

variable {Key Value : Type}

def Trie.empty : Trie Key Value := .node none fun _ => none

def Trie.find : Trie Key Value → List Key → Option Value
  | .node value _, [] => value
  | .node _ child, key :: path => (child key).bind fun below => below.find path

def Trie.insert [DecidableEq Key] : Trie Key Value → List Key → Value → Trie Key Value
  | .node _ child, [], value => .node (some value) child
  | .node here child, key :: path, value =>
    .node here (Function.update child key (some (((child key).getD .empty).insert path value)))

/-- Nothing is kept at this node, and there is no node below it. -/
def Trie.bare [Fintype Key] : Trie Key Value → Bool
  | .node value child => value.isNone && decide (∀ key, (child key).isNone)

/-- Erasing a path fails if the nodes on the path are not there. -/
def Trie.erase [DecidableEq Key] [Fintype Key] : Trie Key Value → List Key → Option (Trie Key Value)
  | .node _ child, [] => some (.node none child)
  | .node value child, key :: path =>
    (child key).bind fun below => (below.erase path).map fun left =>
      .node value (Function.update child key (if left.bare then none else some left))

@[simp] theorem find_empty (path : List Key) : (Trie.empty : Trie Key Value).find path = none := by
  cases path <;> rfl

theorem find_bare [Fintype Key] {t : Trie Key Value} (bare : t.bare = true) (path : List Key) : t.find path = none := by
  cases t with | node value child =>
  simp only [Trie.bare, Bool.and_eq_true, Option.isNone_iff_eq_none, decide_eq_true_eq] at bare
  cases path with
  | nil => exact bare.1
  | cons key path => rw [Trie.find, bare.2 key]; rfl

section
variable [DecidableEq Key]

theorem find_insert (t : Trie Key Value) (path other : List Key) (value : Value) :
    (t.insert path value).find other = if other = path then some value else t.find other := by
  induction path generalizing t other with
  | nil =>
    cases t with | node here child =>
    cases other with
    | nil => rfl
    | cons key other => rw [if_neg (List.cons_ne_nil key other)]; rfl
  | cons key path ih =>
    cases t with | node here child =>
    cases other with
    | nil => rw [if_neg (List.cons_ne_nil key path).symm]; rfl
    | cons key' other =>
      rw [Trie.insert, Trie.find]
      by_cases same : key' = key
      · subst same
        rw [Function.update_self, Option.bind_some, ih]
        simp only [List.cons.injEq, true_and, Trie.find]
        cases child key' with
        | none => rw [Option.getD_none, find_empty]; rfl
        | some below => rfl
      · rw [Function.update_of_ne same, if_neg fun equal => same (List.cons.inj equal).1]
        rfl

/-- Entries are put in one after the other, under paths of their own. -/
theorem find_insertAll {entries : List (List Key × Value)} (apart : (entries.map Prod.fst).Nodup)
    (t : Trie Key Value) (path : List Key) (value : Value) :
    (entries.foldl (fun t entry => t.insert entry.1 entry.2) t).find path = some value ↔
      (path, value) ∈ entries ∨ path ∉ entries.map Prod.fst ∧ t.find path = some value := by
  induction entries generalizing t with
  | nil => simp
  | cons entry entries ih =>
    rw [List.map_cons, List.nodup_cons] at apart
    rw [List.foldl_cons, ih apart.2, find_insert, List.map_cons]
    simp only [List.mem_cons, not_or]
    by_cases here : path = entry.1
    · subst here
      have gone : (entry.1, value) ∉ entries := fun mem => apart.1 (List.mem_map.mpr ⟨_, mem, rfl⟩)
      simp only [gone, apart.1, if_true, not_true_eq_false, false_and, or_false, false_or, not_false_eq_true,
        true_and, Option.some.injEq]
      exact ⟨fun same => Prod.ext rfl same.symm, fun same => (congrArg Prod.snd same).symm⟩
    · have other : (path, value) ≠ entry := fun same => here (congrArg Prod.fst same)
      simp only [here, other, if_false, false_or, not_false_eq_true, true_and]

variable [Fintype Key]

theorem find_erase {t left : Trie Key Value} {path : List Key} (erases : t.erase path = some left)
    (other : List Key) : left.find other = if other = path then none else t.find other := by
  induction path generalizing t left other with
  | nil =>
    cases t with | node here child =>
    obtain rfl := Option.some.inj erases
    cases other with
    | nil => rfl
    | cons key other => rw [if_neg (List.cons_ne_nil key other)]; rfl
  | cons key path ih =>
    cases t with | node here child =>
    obtain ⟨below, there, erases⟩ := Option.bind_eq_some_iff.mp erases
    obtain ⟨below', erases_below, rfl⟩ := Option.map_eq_some_iff.mp erases
    cases other with
    | nil => rw [if_neg (List.cons_ne_nil key path).symm]; rfl
    | cons key' other =>
      rw [Trie.find]
      by_cases same : key' = key
      · subst same
        rw [Function.update_self, Trie.find, there, Option.bind_some]
        simp only [List.cons.injEq, true_and]
        -- a child that is dropped had nothing to find any more
        have kept : (if below'.bare = true then none else some below').bind (fun below => below.find other) =
            below'.find other := by
          split
          next bare => exact (find_bare bare other).symm
          next => rfl
        rw [kept, ih erases_below]
      · rw [Function.update_of_ne same, if_neg fun equal => same (List.cons.inj equal).1]
        rfl

/-- A path with a value can be erased. -/
theorem erase_isSome {t : Trie Key Value} {path : List Key} (found : (t.find path).isSome = true) :
    ∃ left, t.erase path = some left := by
  induction path generalizing t with
  | nil => cases t with | node here child => exact ⟨_, rfl⟩
  | cons key path ih =>
    cases t with | node here child =>
    rw [Trie.find] at found
    cases there : child key with
    | none => rw [there] at found; contradiction
    | some below =>
      rw [there] at found
      obtain ⟨left, erases⟩ := ih found
      exact ⟨_, by rw [Trie.erase, there, Option.bind_some, erases]; rfl⟩

end

end Ircd.Library
