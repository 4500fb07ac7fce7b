import Ircd.Channels.BurstLines

/-! `netride_modes` against the modes that `channel_modes` writes for a server.

It is a second reader of the mode string. It steps over the parameters of `k` and `l` only, and it takes `r` for
the flag that lets in registered users only, which is written as `R`; `r` says that the channel is registered.
-/

set_option autoImplicit false

namespace Ircd.Channels
open Ircd.Text

abbrev ModeEntry := Char × Option (List Char)

/-- What `channel_modes` writes for a server, letter by letter. -/
def modeEntries (m : Mode) : List ModeEntry :=
  (simpleLetters forServer m).map (fun c => (c, none)) ++ (parameters forServer m).map fun p => (p.1, some p.2)

def entryText (entries : List ModeEntry) : List Char := '+' :: entries.map (·.1)

def entryParams (entries : List ModeEntry) : List (List Char) := entries.filterMap (·.2)

theorem entryParams_modeEntries (m : Mode) : entryParams (modeEntries m) = (parameters forServer m).map (·.2) := by
  rw [entryParams, modeEntries, List.filterMap_append, List.filterMap_map, List.filterMap_map]
  simp [Function.comp_def]

/-- How far `netride_modes` steps ahead in the parameters. -/
def netrideSteps : List Char → Nat
  | [] => 0
  | c :: modes =>
    if c = '-' then 0 else if c = 'k' ∨ c = 'l' then netrideSteps modes + 1 else netrideSteps modes

def strangeKey (currKey : List Char) : List Char → List (List Char) → Bool
  | [], _ => false
  | c :: modes, args =>
    if c = 'k' then (currKey ≠ args.headD [] || strangeKey currKey modes args.tail)
    else if c = 'l' then strangeKey currKey modes args.tail
    else strangeKey currKey modes args

variable {currKey : List Char}

theorem netrideModes_eq {modes : List Char} (plain : '-' ∉ modes) (result : RideCheck) (args : List (List Char)) :
    netrideModes currKey result modes args =
      some { inviteOnly := result.inviteOnly || decide ('i' ∈ modes)
             key := result.key || strangeKey currKey modes args
             regOnly := result.regOnly || decide ('r' ∈ modes) } := by
  induction modes generalizing result args with
  | nil => simp [netrideModes, strangeKey]
  | cons c modes ih =>
    have here : c ≠ '-' := fun same => plain (same ▸ List.mem_cons_self)
    have behind : '-' ∉ modes := fun mem => plain (List.mem_cons_of_mem c mem)
    rw [netrideModes, if_neg here, strangeKey]
    by_cases invite : c = 'i'
    · subst invite
      simp [ih behind]
    by_cases key : c = 'k'
    · subst key
      simp [ih behind, Bool.or_assoc]
    by_cases limit : c = 'l'
    · subst limit
      simp [ih behind]
    by_cases reg : c = 'r'
    · subst reg
      simp [ih behind]
    simp [ih behind, invite, key, limit, reg, Ne.symm invite, Ne.symm reg]

theorem netrideModes_beyond {modes : List Char} {args : List (List Char)}
    (inside : netrideSteps modes ≤ args.length) (result : RideCheck) (more : List (List Char)) :
    netrideModes currKey result modes (args ++ more) = netrideModes currKey result modes args := by
  induction modes generalizing result args with
  | nil => rfl
  | cons c modes ih =>
    rw [netrideModes, netrideModes]
    rw [netrideSteps] at inside
    by_cases minus : c = '-'
    · rw [if_pos minus, if_pos minus]
    rw [if_neg minus] at inside ⊢
    rw [if_neg minus]
    by_cases steps : c = 'k' ∨ c = 'l'
    · rw [if_pos steps] at inside
      cases args with
      | nil => exact absurd inside (Nat.not_succ_le_zero _)
      | cons arg args =>
        have rest := fun result => ih (Nat.le_of_succ_le_succ inside) result
        rcases steps with rfl | rfl
        · exact rest _
        · exact rest _
    · rw [if_neg steps] at inside
      rw [not_or] at steps
      simp only [steps.1, steps.2, if_false, ih inside]

theorem strangeKey_none {modes : List Char} (no_key : 'k' ∉ modes) (args : List (List Char)) :
    strangeKey currKey modes args = false := by
  induction modes generalizing args with
  | nil => rfl
  | cons c modes ih =>
    have here : c ≠ 'k' := fun same => no_key (same ▸ List.mem_cons_self)
    have behind : 'k' ∉ modes := fun mem => no_key (List.mem_cons_of_mem c mem)
    rw [strangeKey, if_neg here]
    split
    · exact ih behind _
    · exact ih behind _

/-- With one key it is compared with the parameter that is reached by the limits before it. -/
theorem strangeKey_one {before behind : List Char} (first : 'k' ∉ before) (last : 'k' ∉ behind)
    (args : List (List Char)) :
    strangeKey currKey (before ++ 'k' :: behind) args =
      decide (currKey ≠ (args.drop (before.count 'l')).headD []) := by
  induction before generalizing args with
  | nil => simp [strangeKey, strangeKey_none last]
  | cons c before ih =>
    have here : c ≠ 'k' := fun same => first (same ▸ List.mem_cons_self)
    have rest : 'k' ∉ before := fun mem => first (List.mem_cons_of_mem c mem)
    rw [List.cons_append, strangeKey, if_neg here]
    split
    case isTrue limit =>
      rw [ih rest, limit, List.count_cons_self, ← List.drop_tail]
    case isFalse other =>
      rw [ih rest, List.count_cons_of_ne other]

theorem mem_letters {m : Mode} {table : List (Flag × Char)} {c : Char} :
    c ∈ letters m table ↔ ∃ e ∈ table, m.mode e.1 = true ∧ e.2 = c := by
  rw [letters, List.mem_filterMap]
  refine exists_congr fun e => and_congr_right fun _ => ?_
  split
  case isTrue set => simp [set]
  case isFalse unset => simp [unset]

theorem mem_simpleLetters {m : Mode} {c : Char} (fixed : c ∉ ['s', 'p', 'D']) :
    c ∈ simpleLetters forServer m ↔ ∃ e ∈ firstLetters ++ lastLetters, m.mode e.1 = true ∧ e.2 = c := by
  have hidden : c ∉ (if m.mode .secret then ['s'] else if m.mode .priv then ['p'] else []) := by
    intro mem
    split at mem
    · exact fixed (by simp_all)
    · split at mem
      · exact fixed (by simp_all)
      · cases mem
  have joins : c ∉ (if m.mode .delJoins then ['D'] else []) := by
    intro mem
    split at mem
    · exact fixed (by simp_all)
    · cases mem
  simp only [simpleLetters, forServer, Bool.false_and, Bool.false_eq_true, if_false, List.mem_append, mem_letters,
    hidden, joins, false_or, or_false, or_and_right, exists_or]

theorem invite_written (m : Mode) : 'i' ∈ simpleLetters forServer m ↔ m.mode .inviteOnly = true := by
  rw [mem_simpleLetters (by decide)]
  simp [firstLetters, lastLetters]

/-- The letter that is read for registered users only is the one of a registered channel. -/
theorem registered_written (m : Mode) : 'r' ∈ simpleLetters forServer m ↔ m.mode .registered = true := by
  rw [mem_simpleLetters (by decide)]
  simp [firstLetters, lastLetters]

theorem simple_no_parameter (m : Mode) : 'k' ∉ simpleLetters forServer m ∧ 'l' ∉ simpleLetters forServer m := by
  rw [mem_simpleLetters (by decide), mem_simpleLetters (by decide)]
  simp [firstLetters, lastLetters]

theorem mem_parameter {letter : Char} {present : Bool} {text : List Char} {p : Char × List Char} :
    p ∈ parameter letter present text ↔ present = true ∧ p = (letter, text) := by
  unfold parameter
  split
  case isTrue set => simp [set]
  case isFalse unset => simp [unset]

theorem mem_parameters {m : Mode} {p : Char × List Char} (mem : p ∈ parameters forServer m) :
    p.1 ≠ 'i' ∧ p.1 ≠ 'r' ∧ p.1 ≠ '-' ∧ (p.1 = 'k' → p.2 = m.key) := by
  simp only [parameters, forServer, List.mem_append, mem_parameter] at mem
  rcases mem with ((⟨_, rfl⟩ | ⟨_, rfl⟩) | ⟨_, rfl⟩) | ⟨_, rfl⟩ <;> simp

theorem count_parameter (c letter : Char) (present : Bool) (text : List Char) :
    ((parameter letter present text).map (·.1)).count c = if present = true ∧ letter = c then 1 else 0 := by
  cases present with
  | false => simp [parameter]
  | true => simp [parameter, List.count_singleton]

theorem letters_modeEntries (m : Mode) :
    (modeEntries m).map (·.1) = simpleLetters forServer m ++ (parameters forServer m).map (·.1) := by
  rw [modeEntries, List.map_append, List.map_map, List.map_map]
  simp [Function.comp_def]

theorem mem_modeEntries {m : Mode} {e : ModeEntry} (mem : e ∈ modeEntries m) :
    e.1 ≠ '-' ∧ (e.1 = 'k' ∨ e.1 = 'l' → e.2.isSome = true) ∧ (e.1 = 'k' → e.2 = some m.key) := by
  rcases List.mem_append.mp mem with simple | param
  · obtain ⟨c, written, rfl⟩ := List.mem_map.mp simple
    have plain := simple_no_parameter m
    have not_key : c ≠ 'k' := fun same => plain.1 (same ▸ written)
    have not_limit : c ≠ 'l' := fun same => plain.2 (same ▸ written)
    have inside : c ∈ (channelModes forServer m).1 :=
      List.mem_cons_of_mem _ (List.mem_append_left _ written)
    have letter := channelModes_letters m c inside
    exact ⟨fun same => letter (same ▸ List.mem_cons_self), fun either => absurd either (not_or.mpr ⟨not_key, not_limit⟩),
      fun same => absurd same not_key⟩
  · obtain ⟨p, written, rfl⟩ := List.mem_map.mp param
    obtain ⟨_, _, not_minus, key⟩ := mem_parameters written
    exact ⟨not_minus, fun _ => rfl, fun same => congrArg some (key same)⟩

theorem invite_mem (m : Mode) : 'i' ∈ (modeEntries m).map (·.1) ↔ m.mode .inviteOnly = true := by
  rw [letters_modeEntries, List.mem_append, invite_written]
  refine or_iff_left fun mem => ?_
  obtain ⟨p, written, same⟩ := List.mem_map.mp mem
  exact (mem_parameters written).1 same

theorem registered_mem (m : Mode) : 'r' ∈ (modeEntries m).map (·.1) ↔ m.mode .registered = true := by
  rw [letters_modeEntries, List.mem_append, registered_written]
  refine or_iff_left fun mem => ?_
  obtain ⟨p, written, same⟩ := List.mem_map.mp mem
  exact (mem_parameters written).2.1 same

theorem count_key (m : Mode) : ((modeEntries m).map (·.1)).count 'k' = if m.key = [] then 0 else 1 := by
  have simple : (simpleLetters forServer m).count 'k' = 0 := List.count_eq_zero.mpr (simple_no_parameter m).1
  rw [letters_modeEntries, List.count_append, simple, parameters]
  simp only [List.map_append, List.count_append, count_parameter]
  by_cases none : m.key = [] <;> simp [none]

def keyRead (text : List Char) (args : List (List Char)) : List Char :=
  (args.drop ((text.takeWhile (· ≠ 'k')).count 'l')).headD []

theorem netrideSteps_le {entries : List ModeEntry}
    (given : ∀ e ∈ entries, e.1 = 'k' ∨ e.1 = 'l' → e.2.isSome = true) :
    netrideSteps (entries.map (·.1)) ≤ (entryParams entries).length := by
  induction entries with
  | nil => exact Nat.le_refl 0
  | cons e entries ih =>
    have rest := ih fun e mem => given e (List.mem_cons_of_mem _ mem)
    rw [List.map_cons, netrideSteps]
    have longer : (entryParams entries).length ≤ (entryParams (e :: entries)).length := by
      rw [entryParams, entryParams, List.filterMap_cons]
      split
      · exact Nat.le_refl _
      · exact Nat.le_succ _
    split
    · exact Nat.zero_le _
    · split
      case isTrue steps =>
        obtain ⟨text, here⟩ := Option.isSome_iff_exists.mp (given e List.mem_cons_self steps)
        rw [entryParams, List.filterMap_cons, here]
        exact Nat.succ_le_succ rest
      case isFalse => exact Nat.le_trans rest longer

theorem strangeKey_entries {m : Mode} {entries : List ModeEntry} (order : entries.Perm (modeEntries m)) :
    strangeKey currKey (entryText entries) (entryParams entries) =
      decide (m.key ≠ [] ∧ keyRead (entryText entries) (entryParams entries) ≠ currKey) := by
  have counted : (entryText entries).count 'k' = if m.key = [] then 0 else 1 := by
    rw [entryText, List.count_cons_of_ne (by decide), (order.map (·.1)).count_eq, count_key]
  by_cases none : m.key = []
  · rw [if_pos none] at counted
    rw [strangeKey_none (List.count_eq_zero.mp counted)]
    simp [none]
  · rw [if_neg none] at counted
    have inside : 'k' ∈ entryText entries := List.count_pos_iff.mp (by omega)
    obtain ⟨before, behind, shape⟩ := List.append_of_mem inside
    rw [shape, List.count_append, List.count_cons_self] at counted
    have first : 'k' ∉ before := List.count_eq_zero.mp (by omega)
    have last : 'k' ∉ behind := List.count_eq_zero.mp (by omega)
    have reached : (entryText entries).takeWhile (· ≠ 'k') = before := by
      have others : ∀ c ∈ before, decide (c ≠ 'k') = true :=
        fun c mem => decide_eq_true fun same => first (same ▸ mem)
      rw [shape, List.takeWhile_append_of_pos others]
      simp
    rw [keyRead, reached, shape, strangeKey_one first last]
    simp [none, eq_comm]

theorem netrideModes_entries {m : Mode} {entries : List ModeEntry} (order : entries.Perm (modeEntries m)) :
    netrideModes currKey ⟨false, false, false⟩ (entryText entries) (entryParams entries) =
      some { inviteOnly := m.mode .inviteOnly
             key := decide (m.key ≠ [] ∧ keyRead (entryText entries) (entryParams entries) ≠ currKey)
             regOnly := m.mode .registered } := by
  have same_letters := order.map (·.1)
  have plain : '-' ∉ entryText entries := by
    intro mem
    rcases List.mem_cons.mp mem with sign | letter
    · exact absurd sign (by decide)
    · obtain ⟨e, inside, minus⟩ := List.mem_map.mp letter
      exact (mem_modeEntries (order.mem_iff.mp inside)).1 minus
  have invite : 'i' ∈ entryText entries ↔ m.mode .inviteOnly = true := by
    rw [entryText, List.mem_cons, same_letters.mem_iff, invite_mem]
    exact or_iff_right (by decide)
  have registered : 'r' ∈ entryText entries ↔ m.mode .registered = true := by
    rw [entryText, List.mem_cons, same_letters.mem_iff, registered_mem]
    exact or_iff_right (by decide)
  rw [netrideModes_eq plain, strangeKey_entries order]
  simp [invite, registered]

theorem keyRead_modeEntries {m : Mode} (keyed : m.key ≠ []) :
    keyRead (entryText (modeEntries m)) (entryParams (modeEntries m)) = m.key := by
  have others : ∀ c ∈ '+' :: simpleLetters forServer m, decide (c ≠ 'k') = true := by
    intro c mem
    rcases List.mem_cons.mp mem with rfl | simple
    · decide
    · exact decide_eq_true fun same => (simple_no_parameter m).1 (same ▸ simple)
  have no_limit : ('+' :: simpleLetters forServer m).count 'l' = 0 := by
    rw [List.count_cons_of_ne (by decide)]
    exact List.count_eq_zero.mpr (simple_no_parameter m).2
  rw [keyRead, entryParams_modeEntries, entryText, letters_modeEntries, ← List.cons_append,
    List.takeWhile_append_of_pos others, List.count_append, no_limit]
  by_cases unlimited : m.limit = 0 <;> simp [parameters, parameter, forServer, unlimited, keyed]

/-- What `netride_modes` takes for the modes is what they are. -/
def RideAligned (m : Mode) (currKey : List Char) (entries : List ModeEntry) : Prop :=
  m.mode .regOnly = m.mode .registered ∧
    (m.key ≠ [] → (keyRead (entryText entries) (entryParams entries) = currKey ↔ m.key = currKey))

theorem rideAligned_modeEntries (m : Mode) (currKey : List Char) :
    RideAligned m currKey (modeEntries m) ↔ m.mode .regOnly = m.mode .registered := by
  refine and_iff_left fun keyed => ?_
  rw [keyRead_modeEntries keyed]

/-- The check finds the three modes, and stays inside the parameters, exactly where the channel is registered if it
is for registered users only, and the key that is read compares as the key of the channel. -/
theorem netride_finds_iff (m : Mode) (currKey : List Char) (entries : List ModeEntry)
    (order : entries.Perm (modeEntries m)) :
    (netrideModes currKey ⟨false, false, false⟩ (entryText entries) (entryParams entries) =
        some { inviteOnly := m.mode .inviteOnly
               key := decide (m.key ≠ [] ∧ m.key ≠ currKey)
               regOnly := m.mode .regOnly } ∧
      netrideSteps (entryText entries) ≤ (entryParams entries).length ∧
      ∀ more, netrideModes currKey ⟨false, false, false⟩ (entryText entries) (entryParams entries ++ more) =
        netrideModes currKey ⟨false, false, false⟩ (entryText entries) (entryParams entries)) ↔
      RideAligned m currKey entries := by
  have inside : netrideSteps (entryText entries) ≤ (entryParams entries).length :=
    netrideSteps_le fun e mem => (mem_modeEntries (order.mem_iff.mp mem)).2.1
  have beyond := @netrideModes_beyond currKey _ _ inside ⟨false, false, false⟩
  rw [netrideModes_entries order, and_iff_left ⟨inside, fun more => (beyond more).trans (netrideModes_entries order)⟩,
    RideAligned]
  simp only [Option.some.injEq, RideCheck.mk.injEq, true_and, decide_eq_decide]
  constructor
  · rintro ⟨keys, reg⟩
    refine ⟨reg.symm, fun keyed => ?_⟩
    simpa [keyed, not_iff_not] using keys
  · rintro ⟨reg, keys⟩
    refine ⟨and_congr_right fun keyed => not_congr (keys keyed), reg.symm⟩

/-- A channel for registered users only that is not registered itself. -/
def regOnlyMode : Mode := ⟨.only .regOnly, 0, [], [], []⟩

/-- The flags of a channel with `+rR` and a limit and a key are found. -/
theorem netride_finds_registered :
    netrideModes ['x'] ⟨false, false, false⟩ (entryText (modeEntries ⟨fun _ => true, 5, ['k'], [], []⟩))
        (entryParams (modeEntries ⟨fun _ => true, 5, ['k'], [], []⟩)) = some ⟨true, true, true⟩ :=
  ((netride_finds_iff ⟨fun _ => true, 5, ['k'], [], []⟩ ['x'] _ (.refl _)).mpr
    ((rideAligned_modeEntries _ _).mpr rfl)).1

/-- `+R` is written and not found. -/
theorem regOnly_not_found :
    channelModes forServer regOnlyMode = (['+', 'R'], []) ∧
      netrideModes [] ⟨false, false, false⟩ ['+', 'R'] [] = some ⟨false, false, false⟩ := by
  decide +kernel

end Ircd.Channels
