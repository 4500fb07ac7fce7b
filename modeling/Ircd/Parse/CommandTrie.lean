import Ircd.Library.Trie
import Ircd.Parse.Messages
import Mathlib.Data.List.Nodup

/-! The command tries: the commands and the tokens of `msgtab`, and the service mappings, which come
and go with the configuration.
-/

set_option autoImplicit false

namespace Ircd.Parse
open Ircd.Text Ircd.Library

abbrev MessageTree := Trie (Fin 32) Message

def slot (c : Char) : Fin 32 := ⟨c.toNat % 32, Nat.mod_lt _ (by decide)⟩

def slots (cmd : List Char) : List (Fin 32) := cmd.map slot

def addMsgElement (root : MessageTree) (msg : Message) (cmd : List Char) : MessageTree := root.insert (slots cmd) msg

def delMsgElement (root : MessageTree) (cmd : List Char) : Option MessageTree := root.erase (slots cmd)

/-- The end of the command is looked at first; its terminator is no letter. -/
def msgTreeParse : List Char → MessageTree → Option Message
  | [], .node msg _ => msg
  | c :: cmd, .node _ pointers => if isAlpha c then (pointers (slot c)).bind (msgTreeParse cmd) else none

/-- `msg_tree`, `tok_tree` and `GlobalServiceMapList`. -/
structure Commands where
  msgTree : MessageTree
  tokTree : MessageTree
  maps : List ServiceMap

def initMsgTree : Commands where
  msgTree := msgtab.foldl (fun root msg => addMsgElement root msg msg.cmd) .empty
  tokTree := msgtab.foldl (fun root msg => addMsgElement root msg msg.tok) .empty
  maps := []

def Commands.registerMapping (s : Commands) (map : ServiceMap) : Option Commands :=
  if (msgTreeParse map.command s.msgTree).isSome then none
  else some { s with msgTree := addMsgElement s.msgTree map.message map.command }

def Commands.pseudoBlock (s : Commands) (map : ServiceMap) : Commands :=
  if map.name.isNone || map.services.isEmpty || !strIsAlpha map.command then s
  else
    match s.registerMapping map with
    | some s => { s with maps := map :: s.maps }
    | none => s

/-- `none` is a failed assertion, or a node that is not there. -/
def Commands.unregisterMapping (s : Commands) (map : ServiceMap) : Option Commands :=
  if (msgTreeParse map.command s.msgTree).isNone then none
  else (delMsgElement s.msgTree map.command).map fun root => { s with msgTree := root, maps := s.maps.erase map }

inductive CommandEvent where
  | pseudo (map : ServiceMap)
  | close (map : ServiceMap)

def Commands.step (s : Commands) : CommandEvent → Option Commands
  | .pseudo map => some (s.pseudoBlock map)
  | .close map => if map ∈ s.maps then s.unregisterMapping map else some s

def Commands.run (s : Commands) (events : List CommandEvent) : Option Commands := events.foldlM Commands.step s

/-- What is registered in `msg_tree`, with the names. -/
def Commands.registered (s : Commands) : List (List Char × Message) :=
  s.maps.map (fun map => (map.command, map.message)) ++ msgtab.map fun msg => (msg.cmd, msg)

def tokens : List (List Char × Message) := msgtab.map fun msg => (msg.tok, msg)

def sameName (a b : List Char) : Prop := a.map toLower = b.map toLower

instance (a b : List Char) : Decidable (sameName a b) := inferInstanceAs (Decidable (_ = _))

/-- A lookup finds what is registered under a name, and nothing else. -/
def Finds (root : MessageTree) (entries : List (List Char × Message)) (c : List Char) : Prop :=
  ∀ msg, msgTreeParse c root = some msg ↔ ∃ name, (name, msg) ∈ entries ∧ sameName name c

/-- Both tries find what is registered under a name, and removing the command of another name leaves it. -/
structure LooksUp (s : Commands) (c : List Char) : Prop where
  command : Finds s.msgTree s.registered c
  token : Finds s.tokTree tokens c
  others : ∀ map ∈ s.maps, ¬ sameName map.command c →
    ∃ s', s.unregisterMapping map = some s' ∧ msgTreeParse c s'.msgTree = msgTreeParse c s.msgTree

def unspeakable : List (List Char) := ["END_OF_BURST".toList, "EOB_ACK".toList]

theorem isAlpha_iff {c : Char} :
    isAlpha c = true ↔ 65 ≤ c.toNat ∧ c.toNat ≤ 94 ∨ 97 ≤ c.toNat ∧ c.toNat ≤ 126 := by
  have code (d : Char) : c = d ↔ c.toNat = d.toNat := Char.toNat_inj.symm
  simp only [isAlpha, Bool.or_eq_true, Bool.and_eq_true, decide_eq_true_eq, Char.le_def, UInt32.le_iff_toNat_le,
    List.contains_iff_mem, String.reduceToList, List.mem_cons, List.not_mem_nil, or_false, code]
  simp only [← Char.toNat_val, Char.reduceVal, UInt32.reduceToNat]
  omega

theorem isAlpha_toLower (c : Char) : isAlpha (toLower c) = isAlpha c := by
  rw [Bool.eq_iff_iff, isAlpha_iff, isAlpha_iff]
  rcases toLower_cases c with ⟨upper, image⟩ | ⟨-, image⟩
  · unfold isUpperCode at upper
    rw [image, toNat_ofNat_small (by omega)]
    omega
  · rw [image]

def speltWith (c : Char) : Bool := isAlpha c || c = '_'

theorem speltWith_iff {c : Char} :
    speltWith c = true ↔ 65 ≤ c.toNat ∧ c.toNat ≤ 95 ∨ 97 ≤ c.toNat ∧ c.toNat ≤ 126 := by
  have underscore : c = '_' ↔ c.toNat = 95 := Char.toNat_inj.symm
  rw [speltWith, Bool.or_eq_true, decide_eq_true_eq, isAlpha_iff, underscore]
  omega

theorem slot_eq_iff {a b : Char} (spelt_a : speltWith a = true) (spelt_b : speltWith b = true) :
    slot a = slot b ↔ toLower a = toLower b := by
  rw [speltWith_iff] at spelt_a spelt_b
  rw [slot, slot, Fin.mk.injEq, ← Char.toNat_inj]
  rcases toLower_cases a with ⟨upper_a, image_a⟩ | ⟨lower_a, image_a⟩ <;>
    rcases toLower_cases b with ⟨upper_b, image_b⟩ | ⟨lower_b, image_b⟩ <;>
    unfold isUpperCode at * <;> rw [image_a, image_b]
  · rw [toNat_ofNat_small (by omega), toNat_ofNat_small (by omega)]
    omega
  · rw [toNat_ofNat_small (by omega)]
    omega
  · rw [toNat_ofNat_small (by omega)]
    omega
  · omega

theorem slots_eq_iff {a b : List Char} (spelt_a : a.all speltWith = true) (spelt_b : b.all speltWith = true) :
    slots a = slots b ↔ sameName a b := by
  induction a generalizing b with
  | nil =>
    cases b with
    | nil => exact iff_of_true rfl rfl
    | cons d b => exact iff_of_false (List.cons_ne_nil _ _).symm (List.cons_ne_nil _ _).symm
  | cons c a ih =>
    cases b with
    | nil => exact iff_of_false (List.cons_ne_nil _ _) (List.cons_ne_nil _ _)
    | cons d b =>
      rw [List.all_cons, Bool.and_eq_true] at spelt_a spelt_b
      have tail := ih spelt_a.2 spelt_b.2
      unfold slots sameName at tail ⊢
      rw [List.map_cons, List.map_cons, List.map_cons, List.map_cons, List.cons.injEq, List.cons.injEq, tail,
        slot_eq_iff spelt_a.1 spelt_b.1]

theorem speltWith_of_alpha {name : List Char} (letters : strIsAlpha name = true) : name.all speltWith = true := by
  rw [strIsAlpha, List.all_eq_true] at letters
  rw [List.all_eq_true]
  intro c mem
  rw [speltWith, letters c mem, Bool.true_or]

theorem strIsAlpha_congr {a b : List Char} (same : sameName a b) : strIsAlpha a = strIsAlpha b := by
  have folded (name : List Char) : strIsAlpha (name.map toLower) = strIsAlpha name := by
    rw [strIsAlpha, List.all_map]
    exact congrArg name.all (funext isAlpha_toLower)
  rw [← folded a, ← folded b]
  exact congrArg strIsAlpha same

theorem msgTreeParse_eq (c : List Char) (root : MessageTree) :
    msgTreeParse c root = if strIsAlpha c then root.find (slots c) else none := by
  induction c generalizing root with
  | nil => cases root with | node msg pointers => rfl
  | cons c cmd ih =>
    cases root with | node msg pointers =>
    rw [msgTreeParse, strIsAlpha, List.all_cons]
    cases isAlpha c with
    | false => rfl
    | true =>
      cases there : pointers (slot c) with
      | none => simp [slots, Trie.find, there]
      | some below => simp [slots, Trie.find, there, ih, strIsAlpha]

def placed (entry : List Char × Message) : List (Fin 32) × Message := (slots entry.1, entry.2)

structure Keeps (root : MessageTree) (entries : List (List Char × Message)) : Prop where
  apart : (entries.map fun entry => slots entry.1).Nodup
  found : ∀ path msg, root.find path = some msg ↔ (path, msg) ∈ entries.map placed

section
variable {root : MessageTree} {entries : List (List Char × Message)} {name : List Char} {msg : Message}

theorem keeps_all (apart : (entries.map fun entry => slots entry.1).Nodup) :
    Keeps (entries.foldl (fun root entry => addMsgElement root entry.2 entry.1) .empty) entries := by
  refine ⟨apart, fun path msg => ?_⟩
  have placed_apart : ((entries.map placed).map Prod.fst).Nodup := by rw [List.map_map]; exact apart
  have all := find_insertAll placed_apart .empty path msg
  rw [List.foldl_map, find_empty] at all
  refine all.trans (or_iff_left ?_)
  rintro ⟨-, nothing⟩
  contradiction

theorem Keeps.add (keeps : Keeps root entries) (free : root.find (slots name) = none) (msg : Message) :
    Keeps (addMsgElement root msg name) ((name, msg) :: entries) := by
  have absent (other : Message) : (slots name, other) ∉ entries.map placed := fun mem => by
    rw [(keeps.found _ other).mpr mem] at free
    contradiction
  constructor
  · rw [List.map_cons, List.nodup_cons]
    refine ⟨fun mem => ?_, keeps.apart⟩
    obtain ⟨entry, there, same⟩ := List.mem_map.mp mem
    exact absent entry.2 (List.mem_map.mpr ⟨entry, there, Prod.ext same rfl⟩)
  · intro path other
    rw [addMsgElement, find_insert, List.map_cons, List.mem_cons, ← keeps.found]
    by_cases here : path = slots name
    · subst here
      rw [if_pos rfl, free]
      simp [placed, eq_comm]
    · rw [if_neg here]
      refine (or_iff_right fun same => here ?_).symm
      exact congrArg Prod.fst same

theorem Keeps.remove {left : MessageTree} (keeps : Keeps root entries) (erases : delMsgElement root name = some left)
    {rest : List (List Char × Message)} (shorter : rest.Sublist entries)
    (gone : ∀ entry ∈ entries, entry ∈ rest ↔ slots entry.1 ≠ slots name) : Keeps left rest := by
  refine ⟨keeps.apart.sublist (shorter.map _), fun path msg => ?_⟩
  rw [find_erase erases]
  by_cases here : path = slots name
  · rw [if_pos here]
    refine iff_of_false (by simp) fun mem => ?_
    obtain ⟨entry, there, same⟩ := List.mem_map.mp mem
    exact (gone entry (shorter.subset there)).mp there ((congrArg Prod.fst same).trans here)
  · rw [if_neg here, keeps.found]
    constructor
    · intro mem
      obtain ⟨entry, there, same⟩ := List.mem_map.mp mem
      refine List.mem_map.mpr ⟨entry, (gone entry there).mpr fun at_name => here ?_, same⟩
      exact (congrArg Prod.fst same).symm.trans at_name
    · exact fun mem => (shorter.map placed).subset mem

theorem Keeps.finds (keeps : Keeps root entries) (spelt : ∀ entry ∈ entries, entry.1.all speltWith = true)
    {c : List Char} (letters : ∀ entry ∈ entries, sameName entry.1 c → strIsAlpha entry.1 = true) :
    Finds root entries c := by
  intro msg
  rw [msgTreeParse_eq]
  constructor
  · intro finds
    split at finds
    next alpha =>
      obtain ⟨entry, there, same⟩ := List.mem_map.mp ((keeps.found _ _).mp finds)
      obtain ⟨at_path, rfl⟩ := Prod.mk.injEq .. ▸ same
      exact ⟨entry.1, there, (slots_eq_iff (spelt entry there) (speltWith_of_alpha alpha)).mp at_path⟩
    next => contradiction
  · rintro ⟨name, there, same⟩
    have alpha : strIsAlpha c = true := (strIsAlpha_congr same).symm.trans (letters _ there same)
    rw [if_pos alpha, keeps.found]
    refine List.mem_map.mpr ⟨_, there, Prod.ext ?_ rfl⟩
    exact (slots_eq_iff (spelt _ there) (speltWith_of_alpha alpha)).mpr same

end

theorem msgtab_apart :
    (msgtab.map fun msg => slots msg.cmd).Nodup ∧ (msgtab.map fun msg => slots msg.tok).Nodup := by
  decide +kernel

theorem msgtab_names :
    (∀ msg ∈ msgtab, strIsAlpha msg.tok = true ∧ msg.cmd.all speltWith = true ∧
        (strIsAlpha msg.cmd = true ∨ msg.cmd ∈ unspeakable)) ∧
      ∀ name ∈ unspeakable, strIsAlpha name = false ∧ ∃ msg ∈ msgtab, msg.cmd = name := by
  decide +kernel

structure Good (s : Commands) : Prop where
  commands : Keeps s.msgTree s.registered
  tokens : Keeps s.tokTree tokens
  letters : ∀ map ∈ s.maps, strIsAlpha map.command = true

theorem initMsgTree_good : Good initMsgTree where
  commands := by
    have all := @keeps_all (msgtab.map fun msg => (msg.cmd, msg)) (by rw [List.map_map]; exact msgtab_apart.1)
    rw [List.foldl_map] at all
    exact all
  tokens := by
    have all := @keeps_all tokens (by rw [tokens, List.map_map]; exact msgtab_apart.2)
    rw [tokens, List.foldl_map] at all
    exact all
  letters := fun map mem => by contradiction

variable {s : Commands} {map : ServiceMap}

theorem Good.pseudoBlock (good : Good s) (map : ServiceMap) : Good (s.pseudoBlock map) := by
  unfold Commands.pseudoBlock
  split
  next => exact good
  next valid =>
    have letters : strIsAlpha map.command = true := by
      by_contra other
      exact valid (by rw [Bool.eq_false_iff.mpr other, Bool.not_false, Bool.or_true])
    unfold Commands.registerMapping
    by_cases taken : (msgTreeParse map.command s.msgTree).isSome = true
    · rw [if_pos taken]
      exact good
    · rw [if_neg taken]
      rw [msgTreeParse_eq, if_pos letters, Option.not_isSome_iff_eq_none] at taken
      exact {
        commands := good.commands.add taken map.message
        tokens := good.tokens
        letters := List.forall_mem_cons.mpr ⟨letters, good.letters⟩ }

theorem Good.unregister (good : Good s) (mem : map ∈ s.maps) :
    ∃ s', s.unregisterMapping map = some s' ∧ Good s' ∧
      ∀ path, path ≠ slots map.command → s'.msgTree.find path = s.msgTree.find path := by
  have letters := good.letters map mem
  have there : s.msgTree.find (slots map.command) = some map.message := by
    refine (good.commands.found _ _).mpr (List.mem_map.mpr ⟨(map.command, map.message), ?_, rfl⟩)
    exact List.mem_append_left _ (List.mem_map.mpr ⟨map, mem, rfl⟩)
  obtain ⟨left, erases⟩ := erase_isSome (by rw [there]; rfl)
  refine ⟨⟨left, s.tokTree, s.maps.erase map⟩, ?_, ?_, ?_⟩
  · unfold Commands.unregisterMapping delMsgElement
    rw [msgTreeParse_eq, if_pos letters, there, erases]
    rfl
  · refine ⟨?_, good.tokens, fun other kept => good.letters other (List.mem_of_mem_erase kept)⟩
    have split_off : s.registered.Perm ((map.command, map.message) ::
        ((s.maps.erase map).map (fun map => (map.command, map.message)) ++ msgtab.map fun msg => (msg.cmd, msg))) :=
      ((List.perm_cons_erase mem).map _).append_right _
    refine good.commands.remove erases ((List.erase_sublist.map _).append_right _) ?_
    have apart := (split_off.map fun entry => slots entry.1).nodup_iff.mp good.commands.apart
    rw [List.map_cons, List.nodup_cons] at apart
    intro entry registered
    rcases List.mem_cons.mp (split_off.mem_iff.mp registered) with rfl | kept
    · exact iff_of_false (fun again => apart.1 (List.mem_map.mpr ⟨_, again, rfl⟩)) fun other => other rfl
    · exact iff_of_true kept fun same => apart.1 (List.mem_map.mpr ⟨_, kept, same⟩)
  · intro path other
    rw [find_erase erases, if_neg other]

theorem Good.step (good : Good s) (event : CommandEvent) : ∃ s', s.step event = some s' ∧ Good s' := by
  cases event with
  | pseudo map => exact ⟨_, rfl, good.pseudoBlock map⟩
  | close map =>
    unfold Commands.step
    by_cases mem : map ∈ s.maps
    · obtain ⟨s', removes, good', -⟩ := good.unregister mem
      exact ⟨s', by simp only [mem, if_true, removes], good'⟩
    · exact ⟨s, by simp only [mem, if_false], good⟩

theorem Good.run (good : Good s) (events : List CommandEvent) : ∃ s', s.run events = some s' ∧ Good s' := by
  induction events generalizing s with
  | nil => exact ⟨s, rfl, good⟩
  | cons event events ih =>
    obtain ⟨s', steps, good'⟩ := good.step event
    obtain ⟨s'', runs, good''⟩ := ih good'
    refine ⟨s'', ?_, good''⟩
    unfold Commands.run at runs ⊢
    rw [List.foldlM_cons, steps]
    exact runs

theorem mem_registered {entry : List Char × Message} (mem : entry ∈ s.registered) :
    (∃ map ∈ s.maps, entry = (map.command, map.message)) ∨ ∃ msg ∈ msgtab, entry = (msg.cmd, msg) := by
  rcases List.mem_append.mp mem with mapped | builtin
  · obtain ⟨map, there, same⟩ := List.mem_map.mp mapped
    exact .inl ⟨map, there, same.symm⟩
  · obtain ⟨msg, there, same⟩ := List.mem_map.mp builtin
    exact .inr ⟨msg, there, same.symm⟩

theorem Good.finds_command (good : Good s) {c : List Char} (speakable : ∀ name ∈ unspeakable, ¬ sameName name c) :
    Finds s.msgTree s.registered c := by
  refine good.commands.finds (fun entry mem => ?_) fun entry mem same => ?_
  · rcases mem_registered mem with ⟨map, there, rfl⟩ | ⟨msg, there, rfl⟩
    · exact speltWith_of_alpha (good.letters map there)
    · exact (msgtab_names.1 msg there).2.1
  · rcases mem_registered mem with ⟨map, there, rfl⟩ | ⟨msg, there, rfl⟩
    · exact good.letters map there
    · exact (msgtab_names.1 msg there).2.2.resolve_right fun hard => speakable _ hard same

theorem Good.finds_token (good : Good s) (c : List Char) : Finds s.tokTree Ircd.Parse.tokens c := by
  have letters : ∀ entry ∈ Ircd.Parse.tokens, strIsAlpha entry.1 = true := fun entry mem => by
    obtain ⟨msg, there, rfl⟩ := List.mem_map.mp mem
    exact (msgtab_names.1 msg there).1
  exact good.tokens.finds (fun entry mem => speltWith_of_alpha (letters entry mem)) fun entry mem _ => letters entry mem

/-- Whatever is configured, and removed again, every command is found under its name, except the two
commands whose name is not all letters: these are found by their tokens only. -/
theorem commands_look_up (events : List CommandEvent) :
    ∃ s, initMsgTree.run events = some s ∧
      ∀ c, LooksUp s c ↔ ∀ name ∈ unspeakable, ¬ sameName name c := by
  obtain ⟨s, runs, good⟩ := initMsgTree_good.run events
  refine ⟨s, runs, fun c => ⟨fun looks_up name hard same => ?_, fun speakable => ?_⟩⟩
  · obtain ⟨no_letters, msg, there, rfl⟩ := msgtab_names.2 name hard
    have registered : (msg.cmd, msg) ∈ s.registered := List.mem_append_right _ (List.mem_map.mpr ⟨msg, there, rfl⟩)
    have finds := (looks_up.command msg).mpr ⟨msg.cmd, registered, same⟩
    rw [msgTreeParse_eq, ← strIsAlpha_congr same, no_letters] at finds
    contradiction
  · refine ⟨good.finds_command speakable, good.finds_token c, fun map mem other => ?_⟩
    obtain ⟨s', removes, -, kept⟩ := good.unregister mem
    refine ⟨s', removes, ?_⟩
    rw [msgTreeParse_eq, msgTreeParse_eq]
    split
    next alpha =>
      refine kept _ fun same => other ?_
      exact ((slots_eq_iff (speltWith_of_alpha alpha) (speltWith_of_alpha (good.letters map mem))).mp same).symm
    next => rfl

/-- A server that announces the end of its burst with the whole command is not understood. -/
theorem end_of_burst_unknown : ¬ LooksUp initMsgTree "END_OF_BURST".toList := by
  intro looks_up
  have registered : ("END_OF_BURST".toList, .builtin "END_OF_BURST" "EB" maxPara mflgSlow) ∈ initMsgTree.registered := by
    decide +kernel
  have finds := (looks_up.command _).mpr ⟨_, registered, rfl⟩
  rw [msgTreeParse_eq, if_neg (by decide +kernel)] at finds
  contradiction

end Ircd.Parse
