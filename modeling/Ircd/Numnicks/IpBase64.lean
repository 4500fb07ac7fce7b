import Ircd.Net.InAddr
import Ircd.Numnicks.Base64

/-! `iptobase64` and `base64toip`: addresses on the wire.

An IPv6 address is written word by word with one run of words left out. The search for
that run does not start counting afresh after a run that is not longer than the one
found before, so the words left out need not all be zero.
-/

set_option autoImplicit false

namespace Ircd.Numnicks
open Ircd.Net Ircd.Text

def encodeWord (w : UInt16) : List Char := inttobase64 w.toNat 3

def encodeWords (ws : List UInt16) : List Char := ws.flatMap encodeWord

/-- The loop that looks for the longest run of zeros, from word `ii` on; the result is
`max_start` and `max_zeros`. -/
def longestZeros : List UInt16 → Nat → Nat → Nat → Nat → Nat × Nat
  | [], ii, maxStart, maxZeros, currZeros =>
    if currZeros > maxZeros then (ii - currZeros, currZeros) else (maxStart, maxZeros)
  | w :: ws, ii, maxStart, maxZeros, currZeros =>
    if w = 0 then longestZeros ws (ii + 1) maxStart maxZeros (currZeros + 1)
    else if currZeros > maxZeros then longestZeros ws (ii + 1) (ii - currZeros) currZeros 0
    else longestZeros ws (ii + 1) maxStart maxZeros currZeros

/-- The loop that prints the words from `ii` on. -/
def printRest (maxStart maxZeros : Nat) (ii : Nat) : List UInt16 → List Char
  | [] => []
  | w :: ws =>
    if ii = maxStart ∧ maxZeros ≠ 0 then
      '_' :: printRest maxStart maxZeros (ii + maxZeros) ((w :: ws).drop maxZeros)
    else encodeWord w ++ printRest maxStart maxZeros (ii + 1) ws
termination_by ws => ws.length
decreasing_by
  · simp only [List.length_drop, List.length_cons]; omega
  · simp

def iptobase64 (addr : InAddr) (v6Ok : Bool) : List Char :=
  if addr.isIpv4 then inttobase64 ((addr.word 6).toNat <<< 16 ||| (addr.word 7).toNat) 6
  else if !v6Ok then
    if addr.word 0 = 0x2002 then inttobase64 ((addr.word 1).toNat <<< 16 ||| (addr.word 2).toNat) 6
    else ['A', 'A', 'A', 'A', 'A', 'A']
  else
    let leading := addr.words.takeWhile (· ≠ 0)
    let rest := addr.words.dropWhile (· ≠ 0)
    let firstZero := leading.length
    let run := longestZeros rest firstZero firstZero 0 0
    encodeWords leading ++ printRest run.1 run.2 firstZero rest

/-- The loop of `base64toip`: the words from `pos` on. `none` is a read past the end of
the string or a write past the end of the address. -/
def decodeWords (pos : Nat) : List Char → Option (List UInt16)
  | [] => if pos < 8 then none else some []
  | '_' :: input =>
    if 8 ≤ pos then some []
    else
      let left := (25 - (input.length + 1)) / 3 - pos
      -- The count is unsigned: where it would be negative, the loop leaves the address.
      if 25 < input.length + 1 ∨ (25 - (input.length + 1)) / 3 < pos ∨ 8 < pos + left then none
      else (decodeWords (pos + left) input).map (List.replicate left 0 ++ ·)
  | c₁ :: c₂ :: c₃ :: input =>
    if 8 ≤ pos then some []
    else (decodeWords (pos + 1) input).map (UInt16.ofNat (wordOfDigits c₁ c₂ c₃) :: ·)
  -- The last word may have the terminator for its last digit.
  | [c₁, c₂] =>
    if 8 ≤ pos then some []
    else if pos = 7 then some [UInt16.ofNat (wordOfDigits c₁ c₂ nul)] else none
  | [_] => if pos < 8 then none else some []

def base64toip (input : List Char) : Option (List UInt16) :=
  if input.length = 6 then
    let value := base64toint input
    if value ≠ 0 then
      some [0, 0, 0, 0, 0, 65535, UInt16.ofNat (value >>> 16), UInt16.ofNat (value &&& 65535)]
    else some [0, 0, 0, 0, 0, 0, 0, 0]
  else decodeWords 0 input

@[simp] theorem encodeWords_nil : encodeWords [] = [] := rfl

@[simp] theorem encodeWords_cons (w : UInt16) (ws : List UInt16) :
    encodeWords (w :: ws) = encodeWord w ++ encodeWords ws := rfl

theorem encodeWords_append (ws vs : List UInt16) :
    encodeWords (ws ++ vs) = encodeWords ws ++ encodeWords vs := by
  simp [encodeWords]

@[simp] theorem length_encodeWords (ws : List UInt16) : (encodeWords ws).length = 3 * ws.length := by
  induction ws with
  | nil => rfl
  | cons w ws ih =>
    simp only [encodeWords_cons, encodeWord, List.length_append, length_inttobase64, ih, List.length_cons]
    omega

theorem printRest_all {maxStart maxZeros ii : Nat} {ws : List UInt16}
    (past : maxZeros = 0 ∨ maxStart < ii) : printRest maxStart maxZeros ii ws = encodeWords ws := by
  induction ws generalizing ii with
  | nil => rw [printRest, encodeWords_nil]
  | cons w ws ih =>
    rw [printRest, if_neg (by omega), ih (by omega), encodeWords_cons]

theorem printRest_run {maxStart maxZeros ii : Nat} {ws : List UInt16} (before : ii ≤ maxStart)
    (some_zeros : 0 < maxZeros) (inside : maxStart + maxZeros ≤ ii + ws.length) :
    printRest maxStart maxZeros ii ws =
      encodeWords (ws.take (maxStart - ii)) ++ '_' :: encodeWords (ws.drop (maxStart - ii + maxZeros)) := by
  induction ws generalizing ii with
  | nil =>
    rw [List.length_nil] at inside
    omega
  | cons w ws ih =>
    rw [printRest]
    rw [List.length_cons] at inside
    by_cases here : ii = maxStart
    · rw [if_pos ⟨here, by omega⟩, printRest_all (.inr (by omega)), here]
      simp
    · have offset : maxStart - ii = maxStart - (ii + 1) + 1 := by omega
      have skipped : maxStart - ii + maxZeros = maxStart - (ii + 1) + maxZeros + 1 := by omega
      rw [if_neg (fun both => here both.1), ih (by omega) (by omega), skipped, offset]
      simp

theorem decodeWords_encodeWord {pos : Nat} (w : UInt16) (input : List Char) (inside : pos < 8) :
    decodeWords pos (encodeWord w ++ input) = (decodeWords (pos + 1) input).map (w :: ·) := by
  rw [encodeWord, inttobase64_three]
  simp only [List.cons_append, List.nil_append]
  rw [decodeWords, if_neg (by omega), wordOfDigits_digit w.toNat_lt, UInt16.ofNat_toNat]
  intro underscore
  exact absurd underscore (digit_ne_underscore _)

theorem decodeWords_encodeWords (pos : Nat) (ws : List UInt16) (input : List Char)
    (inside : pos + ws.length ≤ 8) :
    decodeWords pos (encodeWords ws ++ input) = (decodeWords (pos + ws.length) input).map (ws ++ ·) := by
  induction ws generalizing pos with
  | nil => simp
  | cons w ws ih =>
    rw [List.length_cons] at inside
    rw [encodeWords_cons, List.append_assoc, decodeWords_encodeWord w _ (by omega), ih _ (by omega), Option.map_map,
      List.length_cons, Nat.add_assoc, Nat.add_comm 1]
    rfl

theorem decodeWords_done {pos : Nat} (done : 8 ≤ pos) (input : List Char) :
    decodeWords pos input = some [] := by
  fun_cases decodeWords pos input <;> first | rfl | omega

theorem decodeWords_underscore {pos : Nat} (back : List UInt16) (inside : pos + back.length < 8) :
    decodeWords pos ('_' :: encodeWords back) =
      some (List.replicate (8 - back.length - pos) 0 ++ back) := by
  have left : (25 - ((encodeWords back).length + 1)) / 3 - pos = 8 - back.length - pos := by
    rw [length_encodeWords]
    omega
  rw [decodeWords, if_neg (by omega)]
  simp only [left]
  rw [if_neg (by rw [length_encodeWords]; omega)]
  have rest := decodeWords_encodeWords (pos + (8 - back.length - pos)) back [] (by omega)
  have filled : 8 ≤ pos + (8 - back.length - pos) + back.length := by omega
  rw [List.append_nil, decodeWords_done filled] at rest
  simp [rest]

theorem decodeWords_run {front back : List UInt16} (inside : front.length + back.length < 8) :
    decodeWords 0 (encodeWords front ++ '_' :: encodeWords back) =
      some (front ++ List.replicate (8 - back.length - front.length) 0 ++ back) := by
  rw [decodeWords_encodeWords 0 front _ (by omega), Nat.zero_add, decodeWords_underscore back inside]
  simp

theorem longestZeros_bounds (ws : List UInt16) {first ii maxStart maxZeros : Nat} (currZeros : Nat)
    (found : first ≤ maxStart) (inside : maxStart + maxZeros ≤ ii) (counted : first + currZeros ≤ ii) :
    first ≤ (longestZeros ws ii maxStart maxZeros currZeros).1 ∧
      (longestZeros ws ii maxStart maxZeros currZeros).1 +
        (longestZeros ws ii maxStart maxZeros currZeros).2 ≤ ii + ws.length := by
  induction ws generalizing ii maxStart maxZeros currZeros with
  | nil =>
    rw [longestZeros]
    split <;> simp only [List.length_nil] <;> omega
  | cons w ws ih =>
    have shift : ii + (w :: ws).length = ii + 1 + ws.length := by rw [List.length_cons]; omega
    rw [longestZeros, shift]
    split
    · exact ih _ found (by omega) (by omega)
    · split
      · exact ih _ (by omega) (by omega) (by omega)
      · exact ih _ found (by omega) (by omega)

/-- The words a text with the run `start`, `zeros` stands for. -/
def clearRun (ws : List UInt16) (start zeros : Nat) : List UInt16 :=
  ws.take start ++ List.replicate zeros 0 ++ ws.drop (start + zeros)

def leftOut (a : InAddr) : Nat × Nat :=
  let firstZero := (a.words.takeWhile (· ≠ 0)).length
  longestZeros (a.words.dropWhile (· ≠ 0)) firstZero firstZero 0 0

theorem base64toip_printed {leading rest : List UInt16} {start zeros : Nat}
    (length : (leading ++ rest).length = 8) (after : leading.length ≤ start) (inside : start + zeros ≤ 8) :
    base64toip (encodeWords leading ++ printRest start zeros leading.length rest) =
      some (clearRun (leading ++ rest) start zeros) := by
  rw [List.length_append] at length
  by_cases none_left : zeros = 0
  · rw [printRest_all (.inl none_left), ← encodeWords_append, base64toip, if_neg (by simp; omega)]
    have text := decodeWords_encodeWords 0 (leading ++ rest) [] (by simp; omega)
    have filled : 8 ≤ 0 + (leading ++ rest).length := by simp; omega
    rw [List.append_nil, decodeWords_done filled] at text
    rw [text, none_left, clearRun]
    simp
  · have front : leading ++ rest.take (start - leading.length) = (leading ++ rest).take start := by
      rw [List.take_append, List.take_of_length_le after]
    have back : rest.drop (start - leading.length + zeros) = (leading ++ rest).drop (start + zeros) := by
      have offset : start + zeros - leading.length = start - leading.length + zeros := by omega
      have past : leading.drop (start + zeros) = [] := List.drop_eq_nil_of_le (by omega)
      rw [List.drop_append, past, List.nil_append, offset]
    rw [printRest_run after (by omega) (by omega), ← List.append_assoc, ← encodeWords_append, front, back]
    have front_length : ((leading ++ rest).take start).length = start := by simp; omega
    have back_length : ((leading ++ rest).drop (start + zeros)).length = 8 - (start + zeros) := by simp; omega
    rw [base64toip, if_neg (by simp; omega), decodeWords_run (by omega), front_length, back_length, clearRun]
    congr 4
    omega

theorem base64toip_iptobase64_v6 {a : InAddr} (v6 : a.isIpv4 = false) :
    base64toip (iptobase64 a true) = some (clearRun a.words (leftOut a).1 (leftOut a).2) := by
  have split := List.takeWhile_append_dropWhile (p := (· ≠ (0 : UInt16))) (l := a.words)
  have length := a.length_eq
  rw [← split] at length
  have bounds := longestZeros_bounds (a.words.dropWhile (· ≠ 0)) 0
    (le_refl (a.words.takeWhile (· ≠ 0)).length) (le_refl _) (le_refl _)
  rw [Nat.add_zero, ← List.length_append, length] at bounds
  have printed := base64toip_printed length bounds.1 bounds.2
  rw [split] at printed
  simpa only [iptobase64, v6, leftOut, Bool.false_eq_true, if_false, Bool.not_true] using printed

/-- The lengths of the runs of zeros, `curr` zeros being open. -/
def zeroRuns : Nat → List UInt16 → List Nat
  | curr, [] => if curr = 0 then [] else [curr]
  | curr, w :: ws =>
    if w = 0 then zeroRuns (curr + 1) ws
    else if curr = 0 then zeroRuns 0 ws
    else curr :: zeroRuns 0 ws

/-- The second run is longer than the first, or all later runs together are not. -/
def runsClear : List Nat → Bool
  | first :: second :: later => first < second || second + later.sum ≤ first
  | _ => true

def wordOfShape (isZero : Bool) : UInt16 := if isZero then 0 else 1

def flat (w : UInt16) : UInt16 := wordOfShape (w = 0)

theorem flat_eq_zero {w : UInt16} : flat w = 0 ↔ w = 0 := by
  unfold flat wordOfShape
  split <;> simp_all

theorem longestZeros_flat (ws : List UInt16) (ii maxStart maxZeros currZeros : Nat) :
    longestZeros (ws.map flat) ii maxStart maxZeros currZeros =
      longestZeros ws ii maxStart maxZeros currZeros := by
  induction ws generalizing ii maxStart maxZeros currZeros with
  | nil => rfl
  | cons w ws ih => simp only [List.map_cons, longestZeros, flat_eq_zero, ih]

theorem zeroRuns_flat (ws : List UInt16) (curr : Nat) : zeroRuns curr (ws.map flat) = zeroRuns curr ws := by
  induction ws generalizing curr with
  | nil => rfl
  | cons w ws ih => simp only [List.map_cons, zeroRuns, flat_eq_zero, ih]

theorem takeWhile_flat (ws : List UInt16) :
    ((ws.map flat).takeWhile (· ≠ 0)).length = (ws.takeWhile (· ≠ 0)).length ∧
      (ws.map flat).dropWhile (· ≠ 0) = (ws.dropWhile (· ≠ 0)).map flat := by
  have same : (fun w => decide (w ≠ 0)) ∘ flat = fun w => decide (w ≠ 0) := by
    funext w
    simp [flat_eq_zero]
  rw [List.takeWhile_map, List.dropWhile_map, List.length_map, same]
  exact ⟨rfl, rfl⟩

def window (ws : List UInt16) : List UInt16 :=
  let firstZero := (ws.takeWhile (· ≠ 0)).length
  let run := longestZeros (ws.dropWhile (· ≠ 0)) firstZero firstZero 0 0
  (ws.drop run.1).take run.2

theorem window_flat (ws : List UInt16) : window (ws.map flat) = (window ws).map flat := by
  have same := takeWhile_flat ws
  simp only [window, same.1, same.2, longestZeros_flat, List.map_drop, List.map_take]

theorem window_shapes : ∀ b₀ b₁ b₂ b₃ b₄ b₅ b₆ b₇ : Bool,
    (window ([b₀, b₁, b₂, b₃, b₄, b₅, b₆, b₇].map wordOfShape)).all (· = 0) =
      runsClear (zeroRuns 0 ([b₀, b₁, b₂, b₃, b₄, b₅, b₆, b₇].map wordOfShape)) := by
  decide +kernel

theorem window_zero_iff (a : InAddr) :
    (∀ w ∈ window a.words, w = 0) ↔ runsClear (zeroRuns 0 a.words) = true := by
  obtain ⟨ws, length⟩ := a
  match ws, length with
  | [w₀, w₁, w₂, w₃, w₄, w₅, w₆, w₇], _ =>
    have shapes := window_shapes (w₀ = 0) (w₁ = 0) (w₂ = 0) (w₃ = 0) (w₄ = 0) (w₅ = 0) (w₆ = 0) (w₇ = 0)
    change (window ([w₀, w₁, w₂, w₃, w₄, w₅, w₆, w₇].map flat)).all (· = 0) =
      runsClear (zeroRuns 0 ([w₀, w₁, w₂, w₃, w₄, w₅, w₆, w₇].map flat)) at shapes
    rw [window_flat, zeroRuns_flat] at shapes
    simp only [← shapes, List.all_map, List.all_eq_true, Function.comp_apply, flat_eq_zero, decide_eq_true_eq]

theorem clearRun_eq_iff {ws : List UInt16} {start zeros : Nat} (inside : start + zeros ≤ ws.length) :
    clearRun ws start zeros = ws ↔ ∀ w ∈ (ws.drop start).take zeros, w = 0 := by
  have split : ws = ws.take start ++ (ws.drop start).take zeros ++ ws.drop (start + zeros) := by
    rw [List.append_assoc, ← List.drop_drop, List.take_append_drop, List.take_append_drop]
  have length : ((ws.drop start).take zeros).length = zeros := by simp; omega
  unfold clearRun
  constructor
  · intro same
    have both := same.trans split
    rw [List.append_cancel_right_eq, List.append_cancel_left_eq] at both
    exact fun w mem => List.eq_of_mem_replicate (both ▸ mem)
  · intro zero
    have both := List.eq_replicate_iff.mpr ⟨length, zero⟩
    rw [← both, ← split]

theorem roundTrip_v6_iff {a : InAddr} (v6 : a.isIpv4 = false) :
    base64toip (iptobase64 a true) = some a.words ↔ runsClear (zeroRuns 0 a.words) = true := by
  have bounds := longestZeros_bounds (a.words.dropWhile (· ≠ 0)) 0
    (le_refl (a.words.takeWhile (· ≠ 0)).length) (le_refl _) (le_refl _)
  rw [Nat.add_zero, ← List.length_append, List.takeWhile_append_dropWhile] at bounds
  rw [base64toip_iptobase64_v6 v6, Option.some_inj, leftOut, clearRun_eq_iff bounds.2, ← window_zero_iff]
  rfl

theorem roundTrip_v4 {high low : UInt16} (some_word : ¬ (high = 0 ∧ low = 0)) :
    base64toip (inttobase64 (high.toNat <<< 16 ||| low.toNat) 6) = some (InAddr.mapped high low).words := by
  have high_lt := high.toNat_lt
  have low_lt := low.toNat_lt
  have value : high.toNat <<< 16 ||| low.toNat = high.toNat * 65536 + low.toNat := by
    rw [← Nat.shiftLeft_add_eq_or_of_lt low_lt, Nat.shiftLeft_eq]
  have some_value : high.toNat * 65536 + low.toNat ≠ 0 := by
    intro none_left
    exact some_word ⟨UInt16.toNat_inj.mp (by simp; omega), UInt16.toNat_inj.mp (by simp; omega)⟩
  have upper : (high.toNat * 65536 + low.toNat) >>> 16 = high.toNat := by
    rw [Nat.shiftRight_eq_div_pow]
    omega
  have lower : (high.toNat * 65536 + low.toNat) &&& 65535 = low.toNat := by
    rw [Nat.and_two_pow_sub_one_eq_mod (n := 16)]
    omega
  rw [value, base64toip, if_pos (length_inttobase64 _ 6), base64toint_inttobase64 (by decide) (by omega) (by omega)]
  simp only [some_value, ne_eq, not_false_eq_true, if_true, upper, lower, UInt16.ofNat_toNat, InAddr.mapped]

/-- The announced address is recovered if and only if it is an IPv4 address or the
run search counts its runs of zeros apart. -/
theorem base64toip_iptobase64_iff (a : InAddr) (specified : a.unspec = false) :
    base64toip (iptobase64 a true) = some a.canonical.words ↔
      a.isIpv4 = true ∨ runsClear (zeroRuns 0 a.words) = true := by
  cases v4 : a.isIpv4 with
  | false => simp [InAddr.canonical, v4, roundTrip_v6_iff v4]
  | true =>
    have some_word : ¬ (a.word 6 = 0 ∧ a.word 7 = 0) := by
      rintro ⟨high, low⟩
      simp [InAddr.isIpv4, InAddr.unspec, high, low] at v4 specified
      grind
    simp [InAddr.canonical, v4, iptobase64, roundTrip_v4 some_word]

def sampleAddr : InAddr := ⟨[0x2001, 0xdb8, 0, 0, 0, 0, 0, 1], rfl⟩

theorem base64toip_iptobase64_sample :
    sampleAddr.unspec = false ∧
      base64toip (iptobase64 sampleAddr true) = some sampleAddr.canonical.words :=
  ⟨by decide, (base64toip_iptobase64_iff sampleAddr (by decide)).mpr (.inr (by decide))⟩

/-- The address `1:0:2:0:3:0:4:5`: its third word that is not zero is lost. -/
def scatteredAddr : InAddr := ⟨[1, 0, 2, 0, 3, 0, 4, 5], rfl⟩

theorem base64toip_iptobase64_scattered :
    scatteredAddr.unspec = false ∧ scatteredAddr.canonical = scatteredAddr ∧
      base64toip (iptobase64 scatteredAddr true) = some [1, 0, 2, 0, 0, 0, 4, 5] := by
  refine ⟨by decide, by decide, ?_⟩
  rw [base64toip_iptobase64_v6 (by decide)]
  decide

end Ircd.Numnicks
