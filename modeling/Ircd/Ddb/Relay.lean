import Ircd.Ddb.Join
import Ircd.Ddb.Restart
import Ircd.Text.Lines

/-! The tables of a hub on their way to a leaf.

A leaf asks with `J` for the registers it does not have. The hub answers with a part of its file and with `B`,
or with all that is left, and then a new register goes on to the leaf as it comes in. Each side takes the lines
of the other one in the order in which they were sent, and a link that breaks loses what is on its way.
-/

set_option autoImplicit false

namespace Ircd.Ddb
open Ircd.Match Ircd.Text

def Clean (text : List Char) : Prop := nul ∉ text ∧ OneLine text ∧ ∀ c ∈ text, c.toNat < 256

instance decidableClean (text : List Char) : Decidable (Clean text) := inferInstanceAs (Decidable (_ ∧ _ ∧ _))

theorem Clean.of_mem {text part : List Char} (clean : Clean text) (inside : ∀ c ∈ part, c ∈ text) : Clean part :=
  ⟨fun mem => clean.1 (inside _ mem),
    ⟨fun mem => clean.2.1.1 (inside _ mem), fun mem => clean.2.1.2 (inside _ mem)⟩,
    fun c mem => clean.2.2 c (inside c mem)⟩

theorem Clean.append {front back : List Char} (first : Clean front) (second : Clean back) :
    Clean (front ++ back) := by
  unfold Clean OneLine at first second ⊢
  simp only [List.mem_append, not_or]
  refine ⟨⟨first.1, second.1⟩, ⟨⟨first.2.1.1, second.2.1.1⟩, first.2.1.2, second.2.1.2⟩, ?_⟩
  rintro c (mem | mem)
  · exact first.2.2 c mem
  · exact second.2.2 c mem

theorem stringOf_clean {text : List Char} (clean : Clean text) : (stringOf text).chars = text :=
  congrArg CString.chars (stringOf_chars ⟨text, clean.1, clean.2.2⟩)

theorem splitParams_chars {left : Nat} {word : Option (List Char)} {rest p : List Char}
    (mem : p ∈ splitParams left word rest) : ∀ c ∈ p, c ∈ word.getD [] ∨ c ∈ rest := by
  induction rest generalizing left word with
  | nil =>
    cases word with
    | none => cases mem
    | some word =>
      rw [splitParams, List.mem_singleton] at mem
      exact fun c inside => .inl (mem ▸ inside)
  | cons d rest ih =>
    cases word with
    | none =>
      rw [splitParams] at mem
      split_ifs at mem
      · exact fun c inside => (ih mem c inside).imp_right (List.mem_cons_of_mem d)
      · exact fun c inside => .inr (List.mem_cons_of_mem d (List.mem_singleton.mp mem ▸ inside))
      · exact fun c inside => .inr (List.mem_singleton.mp mem ▸ inside)
      · intro c inside
        rcases ih mem c inside with first | behind
        · exact .inr (List.mem_singleton.mp first ▸ List.mem_cons_self)
        · exact .inr (List.mem_cons_of_mem d behind)
    | some word =>
      rw [splitParams] at mem
      split_ifs at mem
      · rcases List.mem_cons.mp mem with rfl | mem
        · exact fun c inside => .inl inside
        · intro c inside
          exact ((ih mem c inside).resolve_left List.not_mem_nil) |> List.mem_cons_of_mem d |> .inr
      · intro c inside
        rcases ih mem c inside with here | behind
        · rcases List.mem_append.mp here with before | last
          · exact .inl before
          · exact .inr (List.mem_singleton.mp last ▸ List.mem_cons_self)
        · exact .inr (List.mem_cons_of_mem d behind)

theorem splitParams_length (left : Nat) (word : Option (List Char)) (rest : List Char) :
    ((splitParams left word rest).map List.length).sum ≤ (word.getD []).length + rest.length := by
  induction rest generalizing left word with
  | nil =>
    cases word with
    | none => exact Nat.le_refl _
    | some word => simp [splitParams]
  | cons d rest ih =>
    cases word with
    | none =>
      have behind := ih left none
      have first := ih (left - 1) (some [d])
      simp only [Option.getD_none, Option.getD_some, List.length_nil, List.length_singleton] at behind first
      rw [splitParams]
      split_ifs
      · rw [List.length_cons, Option.getD_none, List.length_nil]
        omega
      · simp
      · simp
      · rw [List.length_cons, Option.getD_none, List.length_nil]
        omega
    | some word =>
      have behind := ih left none
      have more := ih left (some (word ++ [d]))
      simp only [Option.getD_none, Option.getD_some, List.length_nil, List.length_append,
        List.length_singleton] at behind more
      rw [splitParams]
      split_ifs
      · rw [List.map_cons, List.sum_cons, List.length_cons, Option.getD_some]
        omega
      · rw [List.length_cons, Option.getD_some]
        omega

theorem mem_dropLast_cons {α : Type} {a b : α} {rest : List α} (mem : a ∈ (b :: rest).dropLast) :
    a = b ∨ a ∈ rest.dropLast := by
  cases rest with
  | nil => cases mem
  | cons c rest => exact List.mem_cons.mp mem

theorem splitParams_dropLast {left : Nat} {word : Option (List Char)} (started : ∀ w ∈ word, MiddleWord w)
    {rest p : List Char} (mem : p ∈ (splitParams left word rest).dropLast) : MiddleWord p := by
  induction rest generalizing left word with
  | nil => cases word <;> cases mem
  | cons d rest ih =>
    cases word with
    | none =>
      rw [splitParams] at mem
      split_ifs at mem with blank colon few
      · exact ih (fun w here => absurd here (Option.not_mem_none w)) mem
      · cases mem
      · cases mem
      · refine ih (fun w here => ?_) mem
        obtain rfl := Option.some.inj here
        exact ⟨List.cons_ne_nil _ _, fun inside => blank (List.mem_singleton.mp inside).symm, colon⟩
    | some word =>
      have whole := started word rfl
      rw [splitParams] at mem
      split_ifs at mem with blank
      · rcases mem_dropLast_cons mem with rfl | mem
        · exact whole
        · exact ih (fun w here => absurd here (Option.not_mem_none w)) mem
      · refine ih (fun w here => ?_) mem
        obtain rfl := Option.some.inj here
        obtain ⟨c, more, rfl⟩ := List.exists_cons_of_ne_nil whole.nonempty
        refine ⟨List.cons_ne_nil _ _, ?_, whole.first⟩
        intro inside
        rcases List.mem_append.mp inside with before | last
        · exact whole.unbroken before
        · exact blank (List.mem_singleton.mp last).symm

theorem lineParams_chars {line p : List Char} (mem : p ∈ lineParams line) : ∀ c ∈ p, c ∈ line := by
  intro c inside
  have behind := (splitParams_chars mem c inside).resolve_left List.not_mem_nil
  exact (List.dropWhile_suffix _).subset
    ((List.dropWhile_suffix _).subset ((List.dropWhile_suffix _).subset behind))

theorem lineParams_length (line : List Char) : ((lineParams line).map List.length).sum ≤ line.length := by
  have words := splitParams_length maxPara none
    (((line.dropWhile (· ≠ ' ')).dropWhile (· = ' ')).dropWhile (· ≠ ' '))
  have suffix : (((line.dropWhile (· ≠ ' ')).dropWhile (· = ' ')).dropWhile (· ≠ ' ')).length ≤ line.length :=
    (List.dropWhile_suffix _).length_le.trans
      ((List.dropWhile_suffix _).length_le.trans (List.dropWhile_suffix _).length_le)
  rw [Option.getD_none, List.length_nil, Nat.zero_add] at words
  exact words.trans suffix

theorem lineParams_strings {line : List Char} (clean : Clean line) :
    ((lineParams line).map stringOf).map CString.chars = lineParams line := by
  rw [List.map_map]
  refine (List.map_congr_left fun p mem => ?_).trans (List.map_id _)
  exact stringOf_clean (clean.of_mem (lineParams_chars mem))

theorem parameter_clean {line : List Char} (clean : Clean line) {p : CString}
    (mem : p ∈ (lineParams line).map stringOf) : Clean p.chars := by
  obtain ⟨text, inside, rfl⟩ := List.mem_map.mp mem
  have part := clean.of_mem (lineParams_chars inside)
  rwa [stringOf_clean part]

theorem parameter_middle {line : List Char} (clean : Clean line) {p : CString}
    (mem : p ∈ ((lineParams line).map stringOf).dropLast) : MiddleWord p.chars := by
  rw [← List.map_dropLast] at mem
  obtain ⟨text, inside, rfl⟩ := List.mem_map.mp mem
  rw [stringOf_clean (clean.of_mem (lineParams_chars (List.dropLast_subset _ inside)))]
  exact splitParams_dropLast (fun w here => absurd here (Option.not_mem_none w)) inside

def lineMessage (fromHub : Bool) (line : List Char) (clean : Clean line) (short : line.length ≤ lineLen) :
    Message where
  fromHub
  parv := (lineParams line).map stringOf
  middle p mem := ⟨(parameter_middle clean mem).nonempty, (parameter_middle clean mem).unbroken⟩
  line p mem := (parameter_clean clean mem).2.1
  short := by
    have lengths : ((lineParams line).map stringOf).map (fun p => p.chars.length) =
        (lineParams line).map List.length := by
      conv_rhs => rw [← lineParams_strings clean, List.map_map]
      rfl
    rw [lengths]
    exact (lineParams_length line).trans short

def readMessage (fromHub : Bool) (line : List Char) : Option Message :=
  if taken : Clean line ∧ line.length ≤ lineLen then some (lineMessage fromHub line taken.1 taken.2) else none

end Ircd.Ddb
