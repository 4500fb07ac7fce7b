import Ircd.Auth.IauthLines
import Ircd.Library.BinarySearch
import Ircd.Library.Words
import Mathlib.Data.List.Find
import Mathlib.Data.List.Lex
import Mathlib.Data.List.Sort

/-! The capability table: `capab_list`, its order, and `find_cap`.

`ssl` says whether the server is built with TLS. The table is sorted in place by the first `find_cap`, so whether that
has happened is part of the state.
-/

set_option autoImplicit false

namespace Ircd.Users
open Ircd.Text Ircd.Auth Ircd.Library

inductive Capab where
  | none | namesx | uhnames | extjoin | awaynotify | accnotify | invitenotify | tls
  deriving DecidableEq

inductive CapFeature where
  | multiPrefix | userhostInNames | extendedJoin | awayNotify | accountNotify | inviteNotify | tls
  deriving DecidableEq

/-- An entry of `capab_list`, with its flags. -/
structure Capability where
  cap : Capab
  hidden : Bool
  prohibit : Bool
  proto : Bool
  sticky : Bool
  name : List Char
  feat : Option CapFeature
  deriving DecidableEq

def plainCap (cap : Capab) (name : List Char) (feat : CapFeature) : Capability :=
  ⟨cap, false, false, false, false, name, some feat⟩

def declaredCaps (ssl : Bool) : List Capability :=
  [⟨.none, true, true, false, false, "none".toList, none⟩,
    plainCap .namesx "multi-prefix".toList .multiPrefix,
    plainCap .uhnames "userhost-in-names".toList .userhostInNames,
    plainCap .extjoin "extended-join".toList .extendedJoin,
    plainCap .awaynotify "away-notify".toList .awayNotify,
    plainCap .accnotify "account-notify".toList .accountNotify,
    plainCap .invitenotify "invite-notify".toList .inviteNotify] ++
  if ssl then [plainCap .tls "tls".toList .tls] else []

def capabSort (cap1 cap2 : Capability) : Int := ircdStrcmp cap1.name cap2.name

def sortedCaps (ssl : Bool) : List Capability := (declaredCaps ssl).insertionSort fun a b => capabSort a b ≤ 0

/-- `capab_list`, with the `inited` of `find_cap`. -/
def capabList (ssl inited : Bool) : List Capability := if inited then sortedCaps ssl else declaredCaps ssl

def capabSearch : List Char → List Char → Int
  | [], [] => 0
  | [], b :: _ => charValue nul - charValue (toLower b)
  | k :: _, [] => if isSpace k then 0 else charValue (toLower k) - charValue nul
  | k :: key, b :: rb =>
    if toLower k = toLower b then capabSearch key rb else charValue (toLower k) - charValue (toLower b)

/-- The entry `find_cap` finds, the sign, and the pointer it leaves; none where it is null. -/
structure FoundCap where
  cap : Option Capability
  neg : Bool
  rest : Option (List Char)

def findCap (table : List Capability) (caplist : List Char) : FoundCap :=
  let start := caplist.dropWhile isSpace
  let neg : Bool := peek start = '-'
  let start := if neg then start.tail else start
  let cap := if start = [] then none else bsearch (fun c => capabSearch start c.name) table
  let behind := cap.elim (start.dropWhile (!isSpace ·)) fun c => start.drop c.name.length
  let rest := behind.dropWhile isSpace
  ⟨cap, neg, if rest = [] then none else some rest⟩

structure CapToken where
  neg : Bool
  name : List Char
  deriving DecidableEq

def capToken (word : List Char) : CapToken :=
  if peek word = '-' then ⟨true, word.tail⟩ else ⟨false, word⟩

def capTokens (caplist : Option (List Char)) : List CapToken :=
  (caplist.elim [] (wordsBy isSpace)).map capToken

def lookupCap (table : List Capability) (name : List Char) : Option Capability :=
  table.find? fun c => ircdStrcmp name c.name = 0

def collation (text : List Char) : List Int := text.map (fun c => charValue (toLower c)) ++ [0]

def Stored (text : List Char) : Prop := nul ∉ text ∧ ∀ c ∈ text, c.toNat < 256

instance decidableStored (text : List Char) : Decidable (Stored text) :=
  inferInstanceAs (Decidable (nul ∉ text ∧ ∀ c ∈ text, c.toNat < 256))

theorem Stored.cons {c : Char} {text : List Char} (stored : Stored (c :: text)) :
    charValue (toLower c) ≠ 0 ∧ (toLower c).toNat < 256 ∧ Stored text := by
  have byte := toLower_byte (stored.2 c List.mem_cons_self)
  have some_c : toLower c ≠ nul := by
    intro same
    have c_nul := toLower_eq_nul.mp same
    exact stored.1 (c_nul ▸ List.mem_cons_self)
  refine ⟨?_, byte, ?_, ?_⟩
  · intro zero
    exact some_c (charValue_inj byte (by decide) zero)
  · intro below
    exact stored.1 (List.mem_cons_of_mem c below)
  · intro d d_mem
    exact stored.2 d (List.mem_cons_of_mem c d_mem)

theorem Stored.sublist {a b : List Char} (stored : Stored b) (sub : a.Sublist b) : Stored a := by
  constructor
  · intro inside
    exact stored.1 (sub.subset inside)
  · intro c c_mem
    exact stored.2 c (sub.subset c_mem)

theorem ircdStrcmp_neg_iff {a b : List Char} (stored_a : Stored a) (stored_b : Stored b) :
    ircdStrcmp a b < 0 ↔ collation a < collation b := by
  induction a generalizing b with
  | nil =>
    cases b with
    | nil => simp [ircdStrcmp, collation]
    | cons d b =>
      have value := stored_b.cons.1
      simp only [ircdStrcmp, collation, List.map_nil, List.map_cons, List.nil_append, List.cons_append,
        List.cons_lt_cons_iff]
      rw [show charValue nul = 0 from rfl]
      constructor
      · intro below
        exact .inl (by omega)
      · rintro (above | ⟨same, -⟩)
        · omega
        · exact absurd same.symm value
  | cons c a ih =>
    cases b with
    | nil =>
      have value := stored_a.cons.1
      simp only [ircdStrcmp, collation, List.map_nil, List.map_cons, List.nil_append, List.cons_append,
        List.cons_lt_cons_iff]
      rw [show charValue nul = 0 from rfl]
      constructor
      · intro below
        exact .inl (by omega)
      · rintro (above | ⟨same, -⟩)
        · omega
        · exact absurd same value
    | cons d b =>
      have tails := ih stored_a.cons.2.2 stored_b.cons.2.2
      rw [ircdStrcmp]
      simp only [collation, List.map_cons, List.cons_append, List.cons_lt_cons_iff]
      split
      next same =>
        rw [tails, same]
        simp [collation]
      next apart =>
        have values : charValue (toLower c) ≠ charValue (toLower d) := by
          intro same
          exact apart (charValue_inj stored_a.cons.2.1 stored_b.cons.2.1 same)
        constructor
        · intro below
          exact .inl (by omega)
        · rintro (below | ⟨same, -⟩)
          · omega
          · exact absurd same values

theorem ircdStrcmp_nonpos_iff {a b : List Char} (stored_a : Stored a) (stored_b : Stored b) :
    ircdStrcmp a b ≤ 0 ↔ collation a ≤ collation b := by
  have swapped := ircdStrcmp_neg_iff stored_b stored_a
  rw [ircdStrcmp_swap, Int.neg_neg_iff_pos] at swapped
  rw [← not_lt, ← not_lt, ← swapped]

theorem ircdStrcmp_trans {a b c : List Char} (stored_a : Stored a) (stored_b : Stored b) (stored_c : Stored c)
    (first : ircdStrcmp a b ≤ 0) (second : ircdStrcmp b c < 0) : ircdStrcmp a c < 0 := by
  rw [ircdStrcmp_nonpos_iff stored_a stored_b] at first
  rw [ircdStrcmp_neg_iff stored_b stored_c] at second
  rw [ircdStrcmp_neg_iff stored_a stored_c]
  exact lt_of_le_of_lt first second

def PlainName (name : List Char) : Prop := ∀ c ∈ name, 32 < charValue (toLower c)

instance decidablePlainName (name : List Char) : Decidable (PlainName name) :=
  inferInstanceAs (Decidable (∀ c ∈ name, 32 < charValue (toLower c)))

theorem isSpace_small {c : Char} (space : isSpace c = true) : toLower c = c ∧ charValue c ≤ 32 := by
  have code : c.toNat ≤ 32 := by
    simp only [isSpace, Bool.or_eq_true, Bool.and_eq_true, decide_eq_true_eq] at space
    rcases space with rfl | ⟨-, above⟩
    · decide
    · have : c.toNat ≤ '\r'.toNat := above
      exact this.trans (by decide)
  constructor
  · rcases toLower_cases c with ⟨upper, -⟩ | ⟨-, image⟩
    · unfold isUpperCode at upper
      omega
    · exact image
  · rw [charValue, if_pos (by omega)]
    omega

theorem capabSearch_sign {key name : List Char} (plain : PlainName name) :
    (capabSearch key name).sign = (ircdStrcmp (key.takeWhile (!isSpace ·)) name).sign := by
  induction key generalizing name with
  | nil => cases name <;> rfl
  | cons k key ih =>
    by_cases space : isSpace k = true
    · rw [List.takeWhile_cons_of_neg (by simp [space])]
      cases name with
      | nil => simp [capabSearch, ircdStrcmp, space]
      | cons b name =>
        have above := plain b List.mem_cons_self
        obtain ⟨image, small⟩ := isSpace_small space
        have apart : toLower k ≠ toLower b := by
          intro same
          rw [← same, image] at above
          omega
        rw [capabSearch, if_neg apart, ircdStrcmp, image, show charValue nul = 0 from rfl,
          Int.sign_eq_neg_one_of_neg (by omega), Int.sign_eq_neg_one_of_neg (by omega)]
    · rw [List.takeWhile_cons_of_pos (by simp [space])]
      cases name with
      | nil => simp [capabSearch, ircdStrcmp, space]
      | cons b name =>
        rw [capabSearch, ircdStrcmp]
        split
        · exact ih fun c c_mem => plain c (List.mem_cons_of_mem b c_mem)
        · rfl

structure CapTable (table : List Capability) : Prop where
  sorted : table.Pairwise fun a b => capabSort a b < 0
  plain : ∀ c ∈ table, c.name ≠ [] ∧ PlainName c.name
  stored : ∀ c ∈ table, Stored c.name
  caps_nodup : (table.map Capability.cap).Nodup

variable {table : List Capability}

theorem CapTable.ordered (orderly : CapTable table) {word : List Char} (stored : Stored word) :
    Ordered (fun c => ircdStrcmp word c.name) table := by
  refine orderly.sorted.imp_of_mem fun {a b} a_mem b_mem before here => ?_
  exact ircdStrcmp_trans stored (orderly.stored a a_mem) (orderly.stored b b_mem) here before

/-- The search through a sorted table finds the entry that a scan by the first word finds. -/
theorem bsearch_capabSearch (orderly : CapTable table) {key : List Char} (stored : Stored key) :
    bsearch (fun c => capabSearch key c.name) table = lookupCap table (key.takeWhile (!isSpace ·)) := by
  have same : ∀ c ∈ table,
      (capabSearch key c.name).sign = (ircdStrcmp (key.takeWhile (!isSpace ·)) c.name).sign := by
    intro c c_mem
    exact capabSearch_sign (orderly.plain c c_mem).2
  have ordered := orderly.ordered (stored.sublist (List.takeWhile_sublist (!isSpace ·)))
  rw [bsearch_eq_find? (ordered.congr same), lookupCap]
  refine List.find?_congr fun c c_mem => ?_
  have zero : capabSearch key c.name = 0 ↔ ircdStrcmp (key.takeWhile (!isSpace ·)) c.name = 0 := by
    rw [← Int.sign_eq_zero_iff_zero, same c c_mem, Int.sign_eq_zero_iff_zero]
  simp only [zero]

theorem lookupCap_nil (orderly : CapTable table) : lookupCap table [] = none := by
  rw [lookupCap, List.find?_eq_none]
  intro c c_mem
  obtain ⟨some_name, plain⟩ := orderly.plain c c_mem
  obtain ⟨b, name, name_eq⟩ := List.exists_cons_of_ne_nil some_name
  have above := plain b (by rw [name_eq]; exact List.mem_cons_self)
  rw [name_eq, ircdStrcmp, show charValue nul = 0 from rfl, decide_eq_true_eq]
  omega

/-- The pointer behind an entry is the one behind the word, which is as long as the name. -/
theorem behind_word (orderly : CapTable table) {key : List Char} (stored : Stored key) {c : Capability}
    (found : lookupCap table (key.takeWhile (!isSpace ·)) = some c) :
    key.drop c.name.length = key.dropWhile (!isSpace ·) := by
  have zero : ircdStrcmp (key.takeWhile (!isSpace ·)) c.name = 0 := by
    simpa using List.find?_some found
  have word := stored.sublist (List.takeWhile_sublist (!isSpace ·))
  have name := orderly.stored c (List.mem_of_find?_eq_some found)
  rw [ircdStrcmp_eq_zero word.2 name.2 word.1 name.1] at zero
  have long := congrArg List.length zero
  rw [List.length_map, List.length_map] at long
  conv => lhs; rw [← List.takeWhile_append_dropWhile (p := (!isSpace ·)) (l := key), ← long, List.drop_left]

/-- One call of `find_cap` at the first character of a word, behind a sign if there is one. -/
theorem findCap_key (orderly : CapTable table) {key : List Char} (stored : Stored key) :
    let cap := if key = [] then none else bsearch (fun c => capabSearch key c.name) table
    cap = lookupCap table (key.takeWhile (!isSpace ·)) ∧
      (lookupCap table (key.takeWhile (!isSpace ·))).elim (key.dropWhile (!isSpace ·))
        (fun c => key.drop c.name.length) = key.dropWhile (!isSpace ·) := by
  intro cap
  constructor
  · by_cases none_left : key = []
    · subst none_left
      exact (lookupCap_nil orderly).symm
    · exact (if_neg none_left).trans (bsearch_capabSearch orderly stored)
  · cases cap_eq : lookupCap table (key.takeWhile (!isSpace ·)) with
    | none => rfl
    | some c => exact behind_word orderly stored cap_eq

theorem findCap_eq (orderly : CapTable table) {caplist start : List Char} {c : Char} (stored : Stored caplist)
    (start_eq : caplist.dropWhile isSpace = c :: start) (solid : isSpace c = false) :
    findCap table caplist =
      let token := capToken (c :: start.takeWhile (!isSpace ·))
      let rest := (start.dropWhile (!isSpace ·)).dropWhile isSpace
      ⟨lookupCap table token.name, token.neg, if rest = [] then none else some rest⟩ := by
  have start_sub : (c :: start).Sublist caplist := start_eq ▸ List.dropWhile_sublist _
  have whole := stored.sublist start_sub
  by_cases dash : c = '-'
  · obtain ⟨found, behind⟩ := findCap_key orderly (whole.sublist (List.sublist_cons_self c start))
    simp only [findCap, start_eq, capToken, peek_cons, dash, decide_true, List.tail_cons, if_true, found, behind]
  · obtain ⟨found, behind⟩ := findCap_key orderly whole
    have shown : (!isSpace c) = true := by simp [solid]
    rw [List.takeWhile_cons_of_pos (p := (!isSpace ·)) shown] at found behind
    rw [List.dropWhile_cons_of_pos (p := (!isSpace ·)) shown] at behind
    simp only [findCap, start_eq, capToken, peek_cons, dash, decide_false, if_false, Bool.false_eq_true,
      List.dropWhile_cons_of_pos (p := (!isSpace ·)) shown, found, behind]

theorem findCap_word (orderly : CapTable table) {caplist w : List Char} {ws : List (List Char)}
    (stored : Stored caplist) (split : wordsBy isSpace caplist = w :: ws) :
    (findCap table caplist).neg = (capToken w).neg ∧
      (findCap table caplist).cap = lookupCap table (capToken w).name ∧
      ∃ rest, wordsBy isSpace rest = ws ∧ rest.length < caplist.length ∧ Stored rest ∧
        (findCap table caplist).rest = if ws = [] then none else some rest := by
  have start_words := wordsBy_dropWhile isSpace caplist
  cases start_eq : caplist.dropWhile isSpace with
  | nil =>
    rw [start_eq, split] at start_words
    cases start_words
  | cons c start =>
    have solid : isSpace c = false := by
      have stop := List.head_dropWhile_not isSpace (l := caplist) (by rw [start_eq]; exact List.cons_ne_nil _ _)
      simpa [start_eq] using stop
    have start_sub : (c :: start).Sublist caplist := start_eq ▸ List.dropWhile_sublist _
    rw [start_eq, wordsBy_of_solid solid, List.takeWhile_cons_of_pos (by simp [solid]),
      List.dropWhile_cons_of_pos (by simp [solid]), split, List.cons.injEq] at start_words
    obtain ⟨rfl, rfl⟩ := start_words
    have rest_sub : ((start.dropWhile (!isSpace ·)).dropWhile isSpace).Sublist start :=
      (List.dropWhile_sublist _).trans (List.dropWhile_sublist _)
    rw [findCap_eq orderly stored start_eq solid]
    refine ⟨rfl, rfl, (start.dropWhile (!isSpace ·)).dropWhile isSpace, wordsBy_dropWhile _ _, ?_, ?_, ?_⟩
    · have whole := start_sub.length_le
      have part := rest_sub.length_le
      rw [List.length_cons] at whole
      omega
    · exact stored.sublist (rest_sub.trans ((List.sublist_cons_self c start).trans start_sub))
    · exact if_congr wordsBy_eq_nil.symm rfl rfl

theorem findCap_blank {caplist : List Char} (blank : wordsBy isSpace caplist = []) :
    (findCap table caplist).cap = none := by
  have start_eq := wordsBy_eq_nil.mp blank
  simp [findCap, start_eq]

theorem lookupCap_iff (orderly : CapTable table) {name : List Char} (stored : Stored name) {c : Capability}
    (c_mem : c ∈ table) : lookupCap table name = some c ↔ ircdStrcmp name c.name = 0 := by
  constructor
  · intro found
    simpa using List.find?_some found
  · exact (orderly.ordered stored).find?_eq c_mem

theorem sortedCaps_table (ssl : Bool) : CapTable (sortedCaps ssl) := by
  constructor
  · cases ssl <;> decide
  · cases ssl <;> decide
  · cases ssl <;> decide
  · cases ssl <;> decide

end Ircd.Users
