import Ircd.Text.Numbers

/-! Lines between servers: how long they get and how `parse_server` splits them. -/

set_option autoImplicit false

namespace Ircd.Text

def lineLen : Nat := 510

def maxPara : Nat := 15

/-- The loop of `parse_server` over the parameters: how many more there may be and the word
that is being read. -/
def splitParams : Nat → Option (List Char) → List Char → List (List Char)
  | _, none, [] => []
  | left, none, c :: rest =>
    if c = ' ' then splitParams left none rest
    else if c = ':' then [rest]
    else if left ≤ 1 then [c :: rest]
    else splitParams (left - 1) (some [c]) rest
  | _, some word, [] => [word]
  | left, some word, c :: rest =>
    if c = ' ' then word :: splitParams left none rest else splitParams left (some (word ++ [c])) rest

def lineParams (line : List Char) : List (List Char) :=
  let command := (line.dropWhile (· ≠ ' ')).dropWhile (· = ' ')
  splitParams maxPara none (command.dropWhile (· ≠ ' '))

def sentLine (line : List Char) : List Char := line.take lineLen

structure MiddleWord (word : List Char) : Prop where
  nonempty : word ≠ []
  unbroken : ' ' ∉ word
  first : peek word ≠ ':'

theorem splitParams_word (left : Nat) (front : List Char) {word : List Char} (unbroken : ' ' ∉ word) (rest : List Char) :
    splitParams left (some front) (word ++ ' ' :: rest) = (front ++ word) :: splitParams left none rest := by
  induction word generalizing front with
  | nil => simp [splitParams]
  | cons c word ih =>
    have here : c ≠ ' ' := fun blank => unbroken (blank ▸ List.mem_cons_self)
    have behind : ' ' ∉ word := fun mem => unbroken (List.mem_cons_of_mem c mem)
    rw [List.cons_append, splitParams, if_neg here, ih (front ++ [c]) behind, List.append_assoc]
    rfl

theorem splitParams_middle {left : Nat} (room : 1 < left) {word : List Char} (middle : MiddleWord word)
    (rest : List Char) : splitParams left none (' ' :: (word ++ ' ' :: rest)) =
      word :: splitParams (left - 1) none (' ' :: rest) := by
  obtain ⟨c, word, rfl⟩ := List.exists_cons_of_ne_nil middle.nonempty
  have not_blank : c ≠ ' ' := fun blank => middle.unbroken (blank ▸ List.mem_cons_self)
  have not_colon : c ≠ ':' := by simpa using middle.first
  have behind : ' ' ∉ word := fun mem => middle.unbroken (List.mem_cons_of_mem c mem)
  rw [splitParams, if_pos rfl, List.cons_append, splitParams, if_neg not_blank, if_neg not_colon, if_neg (by omega),
    splitParams_word _ _ behind, splitParams, if_pos rfl]
  rfl

theorem splitParams_single {left : Nat} (room : 1 < left) {word : List Char} (middle : MiddleWord word) :
    splitParams left none word = [word] := by
  have behind (front : List Char) {word : List Char} (unbroken : ' ' ∉ word) :
      splitParams (left - 1) (some front) word = [front ++ word] := by
    induction word generalizing front with
    | nil => simp [splitParams]
    | cons c word ih =>
      have here : c ≠ ' ' := fun blank => unbroken (blank ▸ List.mem_cons_self)
      rw [splitParams, if_neg here, ih (front ++ [c]) fun mem => unbroken (List.mem_cons_of_mem c mem)]
      simp
  obtain ⟨c, word, rfl⟩ := List.exists_cons_of_ne_nil middle.nonempty
  have not_blank : c ≠ ' ' := fun blank => middle.unbroken (blank ▸ List.mem_cons_self)
  have not_colon : c ≠ ':' := by simpa using middle.first
  rw [splitParams, if_neg not_blank, if_neg not_colon, if_neg (by omega),
    behind [c] fun mem => middle.unbroken (List.mem_cons_of_mem c mem)]
  rfl

theorem splitParams_front {left : Nat} (room : 1 < left) {word : List Char} (middle : MiddleWord word)
    (rest : List Char) : splitParams left none (word ++ ' ' :: rest) = word :: splitParams (left - 1) none rest := by
  have split := splitParams_middle room middle rest
  rw [splitParams, if_pos rfl] at split
  rw [split, splitParams, if_pos rfl]

def joinParams (words : List (List Char)) (trailing : List Char) : List Char :=
  words.flatMap (' ' :: ·) ++ ' ' :: ':' :: trailing

theorem splitParams_join (left : Nat) {words : List (List Char)} (middle : ∀ word ∈ words, MiddleWord word)
    (room : words.length < left) (trailing : List Char) :
    splitParams left none (joinParams words trailing) = words ++ [trailing] := by
  induction words generalizing left with
  | nil => simp [joinParams, splitParams]
  | cons word words ih =>
    have behind : ∃ rest, joinParams words trailing = ' ' :: rest := by
      cases words with
      | nil => exact ⟨_, rfl⟩
      | cons next words => exact ⟨_, rfl⟩
    obtain ⟨rest, shape⟩ := behind
    have text : joinParams (word :: words) trailing = ' ' :: (word ++ joinParams words trailing) := by
      simp [joinParams]
    have more := ih (left - 1) (fun other mem => middle other (List.mem_cons_of_mem word mem)) (by
      rw [List.length_cons] at room
      omega)
    rw [text, shape, splitParams_middle (by rw [List.length_cons] at room; omega) (middle word List.mem_cons_self),
      ← shape, more]
    rfl

theorem splitParams_words (left : Nat) {words : List (List Char)} (middle : ∀ word ∈ words, MiddleWord word)
    (room : words.length < left) : splitParams left none (words.flatMap (' ' :: ·)) = words := by
  induction words generalizing left with
  | nil => simp [splitParams]
  | cons word words ih =>
    have here := middle word List.mem_cons_self
    rw [List.length_cons] at room
    rw [List.flatMap_cons, List.cons_append, splitParams, if_pos rfl]
    cases words with
    | nil =>
      rw [List.flatMap_nil, List.append_nil]
      exact splitParams_single (by omega) here
    | cons next words =>
      have more := ih (left - 1) (fun other mem => middle other (List.mem_cons_of_mem word mem)) (by omega)
      rw [List.flatMap_cons, List.cons_append] at more ⊢
      rw [splitParams, if_pos rfl] at more
      rw [splitParams_front (by omega) here, more]

def commandLine (source command : List Char) (words : List (List Char)) (trailing : List Char) : List Char :=
  source ++ ' ' :: command ++ joinParams words trailing

theorem lineParams_command {source command : List Char} (source_word : ' ' ∉ source) (command_word : ' ' ∉ command)
    (some_command : command ≠ []) (rest : List Char) :
    lineParams (source ++ ' ' :: command ++ ' ' :: rest) = splitParams maxPara none (' ' :: rest) := by
  have skip {word : List Char} (unbroken : ' ' ∉ word) (rest : List Char) :
      (word ++ ' ' :: rest).dropWhile (· ≠ ' ') = ' ' :: rest := by
    rw [List.dropWhile_append_of_pos]
    · simp
    · intro c mem
      simp only [decide_eq_true_eq]
      rintro rfl
      exact unbroken mem
  obtain ⟨c, tail, command_shape⟩ := List.exists_cons_of_ne_nil some_command
  have not_blank : c ≠ ' ' := by
    rintro rfl
    rw [command_shape] at command_word
    exact command_word List.mem_cons_self
  have unprefixed : ((source ++ ' ' :: command ++ ' ' :: rest).dropWhile (· ≠ ' ')).dropWhile (· = ' ') =
      command ++ ' ' :: rest := by
    rw [List.append_assoc, List.cons_append, skip source_word, command_shape]
    simp [not_blank]
  rw [lineParams]
  simp only [unprefixed]
  rw [skip command_word]

theorem lineParams_commandLine {source command : List Char} (source_word : ' ' ∉ source) (command_word : ' ' ∉ command)
    (some_command : command ≠ []) {words : List (List Char)} (middle : ∀ word ∈ words, MiddleWord word)
    (room : words.length < maxPara) (trailing : List Char) :
    lineParams (commandLine source command words trailing) = words ++ [trailing] := by
  obtain ⟨rest, shape⟩ : ∃ rest, joinParams words trailing = ' ' :: rest := by
    cases words with
    | nil => exact ⟨_, rfl⟩
    | cons next words => exact ⟨_, rfl⟩
  rw [commandLine, shape, lineParams_command source_word command_word some_command, ← shape,
    splitParams_join maxPara middle room]

def lineHeader (source command : List Char) (words : List (List Char)) : List Char :=
  source ++ ' ' :: command ++ words.flatMap (' ' :: ·) ++ [' ', ':']

theorem commandLine_eq (source command : List Char) (words : List (List Char)) (trailing : List Char) :
    commandLine source command words trailing = lineHeader source command words ++ trailing := by
  simp [commandLine, joinParams, lineHeader]

theorem sentLine_commandLine {source command : List Char} {words : List (List Char)}
    (fits : (lineHeader source command words).length ≤ lineLen) (trailing : List Char) :
    sentLine (commandLine source command words trailing) =
      commandLine source command words (trailing.take (lineLen - (lineHeader source command words).length)) := by
  rw [sentLine, commandLine_eq, commandLine_eq, List.take_append, List.take_of_length_le fits]

def strtok (sep : Char) (s : List Char) : List (List Char) := (s.splitOn sep).filter (· ≠ [])

theorem strtok_intercalate {sep : Char} {parts : List (List Char)} (nonempty : ∀ part ∈ parts, part ≠ [])
    (unbroken : ∀ part ∈ parts, sep ∉ part) : strtok sep ([sep].intercalate parts) = parts := by
  by_cases none : parts = []
  · subst none
    simp [strtok, List.intercalate]
  · rw [strtok, List.splitOn_intercalate sep unbroken none, List.filter_eq_self]
    simpa using nonempty

theorem length_printed {n : Nat} (small : n < 2 ^ 64) : (Nat.toDigits 10 n).length ≤ 20 := by
  rw [Nat.length_toDigits_le_iff (by decide) (by decide)]
  omega

theorem printed_middle (n : Nat) : MiddleWord (Nat.toDigits 10 n) := by
  obtain ⟨c, rest, shape, digit⟩ := toDigits_eq_cons n
  refine ⟨Nat.toDigits_ne_nil, fun blank => absurd (isDigit_of_mem_toDigits blank) (by decide), ?_⟩
  rw [shape, peek_cons]
  rintro rfl
  exact absurd digit (by decide)

end Ircd.Text
