import Ircd.Glines.Message
import Ircd.Net.MaskWidth

/-! `gline_checkmask`: whether a mask is too wide for a local G-line.

It goes through the mask once and counts the bits of what looks like an address. Whether that is one is never
asked: `ipmask_parse` has its own idea.
-/

set_option autoImplicit false

namespace Ircd.Glines
open Ircd.Text Ircd.Net
open Ircd.Match (isWild not_isWild_iff)

def isIp6Char (c : Char) : Bool :=
  isDigit c || c ∈ [':', '.', 'A', 'B', 'C', 'D', 'E', 'F', 'a', 'b', 'c', 'd', 'e', 'f']

/-- The variables of the scan; the `MASK_` flags are a `Bool` each. -/
structure MaskScan where
  wild0 : Bool
  wild1 : Bool
  wilds : Bool
  ip : Bool
  halt : Bool
  dots : Nat
  ipmask : Nat

def MaskScan.start : MaskScan := ⟨false, false, false, true, false, 0, 0⟩

def MaskScan.step (s : MaskScan) (c : Char) : MaskScan :=
  if c = '.' then
    { s with
      wild0 := false
      wild1 := s.wild0
      dots := s.dots + 1
      ipmask := if s.ip && !s.wilds then s.ipmask + 8 else s.ipmask }
  else if isWild c then { s with wild0 := true, wilds := true }
  else if !isIp6Char c then { s with ip := false, ipmask := 0 }
  else s

/-- The bit specifier; `none` where the mask is rejected. -/
def MaskScan.bits (s : MaskScan) (rest : List Char) : Option MaskScan :=
  let ipmask := strtoul rest % 2 ^ 32
  if strtoulEnd rest ≠ [] || s.wilds || !s.ip then none
  else if s.dots = 0 then
    if ipmask > 128 then none else some { s with ipmask := ipmask, wilds := ipmask < 128, halt := true }
  else if s.dots ≠ 3 || ipmask > 32 then none
  else some { s with ipmask := ipmask, wilds := ipmask < 32, halt := true }

def MaskScan.walk : List Char → MaskScan → Option MaskScan
  | [], s => some s
  | c :: rest, s => if c = '/' then s.bits rest else MaskScan.walk rest (s.step c)

inductive MaskCheck where
  | approved | overridable | rejected
  deriving DecidableEq, Repr

def MaskScan.verdict (s : MaskScan) : MaskCheck :=
  let s := if s.dots > 3 || (!s.wilds && s.dots < 3) then { s with ip := false, ipmask := 0 } else s
  let s := if s.ip && !s.wilds && !s.halt then { s with ipmask := s.ipmask + 8 } else s
  if s.wilds && (!s.ip && (s.dots < 2 || s.wild0 || s.wild1) || s.ip && s.ipmask < 16) then .rejected
  else if s.wilds then .overridable
  else .approved

def glineCheckmask (mask : List Char) : MaskCheck :=
  match MaskScan.walk mask .start with
  | none => .rejected
  | some s => s.verdict

def ReadsWhole (mask : List Char) : Prop := ∃ r, ipmaskParse true mask = some r ∧ r.rest = []

def WideAddress (mask : List Char) : Prop :=
  ∃ r, ipmaskParse true mask = some r ∧ r.rest = [] ∧ ∃ bits, r.pbits = some bits ∧ enoughBits mask ≤ bits

def lastTwo (mask : List Char) : List (List Char) :=
  (mask.splitOn '.').drop ((mask.splitOn '.').length - 2)

def PlainDomain (mask : List Char) : Prop :=
  2 ≤ mask.count '.' ∧ ∀ field ∈ lastTwo mask, ∀ c ∈ field, isWild c = false

def LooksLikeAddress (mask : List Char) : Prop :=
  (∀ c ∈ mask, isIp6Char c = true ∨ isWild c = true) ∧ mask.count '.' ≤ 3

/-- What the scan takes for an address that is not too wide, without three dots before a slash. -/
def TakenForAddress (mask : List Char) : Prop :=
  if '/' ∈ mask then
    (∀ c ∈ mask.takeWhile (· ≠ '/'), isIp6Char c = true ∧ c ≠ '.') ∧ strtoulEnd (behindSlash mask) = [] ∧
      16 ≤ strtoul (behindSlash mask) % 2 ^ 32 ∧ strtoul (behindSlash mask) % 2 ^ 32 ≤ 128
  else LooksLikeAddress mask ∧ 2 ≤ dotsBeforeWild mask

def hasWild (field : List Char) : Bool := field.any isWild

def wildFlags : Bool × Bool → List Bool → Bool × Bool
  | w, [] => w
  | w, [b] => (w.1 || b, w.2)
  | w, b :: b' :: bs => wildFlags (false, w.1 || b) (b' :: bs)

theorem wildFlags_last {bs : List Bool} (three : 3 ≤ bs.length) (w : Bool × Bool) :
    wildFlags w bs = (false, false) ↔ ∀ b ∈ bs.drop (bs.length - 2), b = false := by
  induction bs generalizing w with
  | nil => exact absurd three (by decide)
  | cons b bs ih =>
    rcases bs with - | ⟨c, - | ⟨d, - | ⟨e, rest⟩⟩⟩
    · exact absurd three (by simp)
    · exact absurd three (by simp)
    · simp [wildFlags, and_comm]
    · rw [wildFlags, ih (by simp)]
      simp

theorem splitOn_length (text : List Char) : (text.splitOn '.').length = text.count '.' + 1 := by
  induction text with
  | nil => rfl
  | cons c rest ih =>
    rw [List.splitOn_cons_eq_if_modifyHead]
    by_cases dot : c = '.'
    · subst dot
      rw [if_pos (by decide), List.length_cons, ih, List.count_cons_self]
    · rw [if_neg (by simpa using dot), List.length_modifyHead, ih, List.count_cons_of_ne dot]

theorem wildFlags_head {c : Char} (w : Bool × Bool) (fields : List (List Char)) (some_field : fields ≠ []) :
    wildFlags w ((fields.modifyHead (List.cons c)).map hasWild) =
      wildFlags (w.1 || isWild c, w.2) (fields.map hasWild) := by
  rcases fields with - | ⟨f, - | ⟨g, rest⟩⟩
  · exact absurd rfl some_field
  · simp [wildFlags, hasWild, Bool.or_assoc]
  · simp [wildFlags, hasWild, Bool.or_assoc]

section
variable {s : MaskScan} {c : Char}

theorem step_dot : s.step '.' = { s with
    wild0 := false
    wild1 := s.wild0
    dots := s.dots + 1
    ipmask := if s.ip && !s.wilds then s.ipmask + 8 else s.ipmask } := rfl

theorem step_wild (wild : isWild c = true) : s.step c = { s with wild0 := true, wilds := true } := by
  have other : c ≠ '.' := by
    rintro rfl
    exact absurd wild (by decide)
  rw [MaskScan.step, if_neg other, if_pos wild]

theorem step_plain (other : c ≠ '.') (plain : isWild c = false) :
    s.step c = if isIp6Char c then s else { s with ip := false, ipmask := 0 } := by
  rw [MaskScan.step, if_neg other, plain, if_neg Bool.false_ne_true]
  cases isIp6Char c <;> rfl

theorem step_counts (s : MaskScan) (c : Char) :
    (s.step c).dots = s.dots + [c].count '.' ∧ (s.step c).wilds = (s.wilds || isWild c) ∧
      (s.step c).ip = (s.ip && (isIp6Char c || isWild c)) ∧ (s.step c).halt = s.halt := by
  by_cases dot : c = '.'
  · subst dot
    rw [step_dot]
    simp [(by decide : isWild '.' = false), (by decide : isIp6Char '.' = true)]
  have none : [c].count '.' = 0 := List.count_eq_zero.mpr (by simpa using Ne.symm dot)
  cases wild : isWild c with
  | true =>
    rw [step_wild wild, none]
    simp
  | false =>
    rw [step_plain dot wild, none]
    cases known : isIp6Char c <;> simp

theorem step_flags (s : MaskScan) (c : Char) (rest : List Char) :
    wildFlags (s.wild0, s.wild1) (((c :: rest).splitOn '.').map hasWild) =
      wildFlags ((s.step c).wild0, (s.step c).wild1) ((rest.splitOn '.').map hasWild) := by
  have some_field := List.splitOn_ne_nil '.' rest
  rw [List.splitOn_cons_eq_if_modifyHead]
  by_cases dot : c = '.'
  · subst dot
    rw [if_pos (by decide), step_dot]
    rcases fields : rest.splitOn '.' with - | ⟨f, fs⟩
    · exact absurd fields some_field
    · simp [wildFlags, hasWild]
  · rw [if_neg (by simpa using dot), wildFlags_head _ _ some_field]
    cases wild : isWild c with
    | true => rw [step_wild wild, Bool.or_true]
    | false =>
      rw [step_plain dot wild, Bool.or_false]
      split <;> rfl

theorem steps_counts (text : List Char) (s : MaskScan) :
    (text.foldl MaskScan.step s).dots = s.dots + text.count '.' ∧
      (text.foldl MaskScan.step s).wilds = (s.wilds || text.any isWild) ∧
      (text.foldl MaskScan.step s).ip = (s.ip && text.all fun c => isIp6Char c || isWild c) ∧
      (text.foldl MaskScan.step s).halt = s.halt := by
  induction text generalizing s with
  | nil => simp
  | cons c rest ih =>
    obtain ⟨dots, wilds, ip, halt⟩ := step_counts s c
    obtain ⟨dots', wilds', ip', halt'⟩ := ih (s.step c)
    have counted : ([c] ++ rest).count '.' = [c].count '.' + rest.count '.' := List.count_append
    rw [List.singleton_append] at counted
    rw [List.foldl_cons, dots', wilds', ip', halt', dots, wilds, ip, halt, counted, List.any_cons, List.all_cons,
      Bool.or_assoc, Bool.and_assoc]
    exact ⟨by omega, rfl, rfl, rfl⟩

theorem steps_flags (text : List Char) (s : MaskScan) :
    ((text.foldl MaskScan.step s).wild0, (text.foldl MaskScan.step s).wild1) =
      wildFlags (s.wild0, s.wild1) ((text.splitOn '.').map hasWild) := by
  induction text generalizing s with
  | nil => simp [List.splitOn_nil, wildFlags, hasWild]
  | cons c rest ih => rw [List.foldl_cons, ih, ← step_flags]

/-- As long as the text looks like an address, its bits are those of the parts before the first wildcard. -/
theorem steps_bits (text : List Char) {s : MaskScan} (ip : (text.foldl MaskScan.step s).ip = true) :
    (text.foldl MaskScan.step s).ipmask = s.ipmask + if s.wilds then 0 else 8 * dotsBeforeWild text := by
  induction text generalizing s with
  | nil => simp [dotsBeforeWild]
  | cons c rest ih =>
    rw [List.foldl_cons] at ip ⊢
    have here := (steps_counts rest (s.step c)).2.2.1
    rw [ip] at here
    have address : (s.step c).ip = true := (Bool.and_eq_true_iff.mp here.symm).1
    rw [ih ip]
    by_cases dot : c = '.'
    · subst dot
      rw [step_dot] at address ⊢
      dsimp only at address ⊢
      rw [address, dotsBeforeWild_dot]
      cases s.wilds with
      | true => rfl
      | false =>
        simp only [Bool.true_and, Bool.not_false, if_true, Bool.false_eq_true, if_false]
        omega
    · cases wild : isWild c with
      | true =>
        rw [step_wild wild, dotsBeforeWild_wild wild]
        cases s.wilds <;> rfl
      | false =>
        rw [dotsBeforeWild_other wild dot]
        rw [step_plain dot wild] at address ⊢
        split
        · rfl
        next strange =>
          rw [if_neg strange] at address
          cases address

theorem walk_plain {text : List Char} (no_slash : '/' ∉ text) (s : MaskScan) :
    MaskScan.walk text s = some (text.foldl MaskScan.step s) := by
  induction text generalizing s with
  | nil => rfl
  | cons c rest ih =>
    rw [MaskScan.walk, if_neg (fun same : c = '/' => no_slash (same ▸ List.mem_cons_self)),
      ih fun mem => no_slash (List.mem_cons_of_mem c mem)]
    rfl

theorem walk_slash {text : List Char} (slash : '/' ∈ text) (s : MaskScan) :
    MaskScan.walk text s = ((text.takeWhile (· ≠ '/')).foldl MaskScan.step s).bits (behindSlash text) := by
  induction text generalizing s with
  | nil => cases slash
  | cons c rest ih =>
    rw [MaskScan.walk]
    by_cases here : c = '/'
    · subst here
      rw [if_pos rfl, List.takeWhile_cons_of_neg (by decide), behindSlash_slash, List.foldl_nil]
    · rw [if_neg here, ih ((List.mem_cons.mp slash).resolve_left (Ne.symm here)),
        List.takeWhile_cons_of_pos (by simpa using here), behindSlash_other here, List.foldl_cons]

end

theorem readBits_snd (bits : Nat) (text : List Char) : (readBits bits text).2 = text.dropWhile isDigit := by
  induction text generalizing bits with
  | nil => rfl
  | cons c rest ih =>
    rw [readBits]
    cases digit : isDigit c with
    | true => rw [if_pos rfl, ih, List.dropWhile_cons_of_pos digit]
    | false => rw [if_neg Bool.false_ne_true, List.dropWhile_cons_of_neg (by simp [digit])]

theorem readBits_strtoul {text : List Char} (small : strtoul text % 2 ^ 32 ≤ 128)
    (whole : (readBits 0 text).2 = []) :
    (readBits 0 text).1 = strtoul text % 2 ^ 32 := by
  rw [readBits_snd, List.dropWhile_eq_nil_iff] at whole
  have value := strtoul_digits whole
  have kept := readBits_fst 0 text
  rw [Nat.zero_mod] at kept
  rw [kept]
  omega

theorem plain_of {kind : Char → Bool} {c : Char} (holds : kind c = true) (dot : kind '.' = false)
    (star : kind '*' = false) (one : kind '?' = false) : c ≠ '.' ∧ isWild c = false := by
  have other {d : Char} (fails : kind d = false) : c ≠ d := by
    rintro rfl
    rw [holds] at fails
    cases fails
  exact ⟨other dot, not_isWild_iff.mpr ⟨other star, other one⟩⟩

theorem strtoulEnd_plain {text : List Char} (whole : strtoulEnd text = []) :
    ∀ c ∈ text, c ≠ '.' ∧ isWild c = false := by
  intro c mem
  have some_text : text ≠ [] := List.ne_nil_of_mem mem
  have digits {number : List Char} (mem : c ∈ number)
      (gone : (if isDigit (peek number) then number.dropWhile isDigit else text) = []) :
      c ≠ '.' ∧ isWild c = false := by
    split at gone
    · exact plain_of (List.dropWhile_eq_nil_iff.mp gone c mem) (by decide) (by decide) (by decide)
    · exact absurd gone some_text
  -- the blanks and the sign in front of the digits
  rw [← List.takeWhile_append_dropWhile (p := fun c => c = ' ' || '\t' ≤ c && c ≤ '\r') (l := text)] at mem
  rcases List.mem_append.mp mem with front | behind
  · exact plain_of (List.mem_takeWhile_imp front) (by decide) (by decide) (by decide)
  unfold strtoulEnd at whole
  dsimp only at whole
  split at whole
  next rest number =>
    rw [number] at behind
    rcases List.mem_cons.mp behind with rfl | digit
    · exact ⟨by decide, by decide⟩
    · exact digits digit whole
  next rest number =>
    rw [number] at behind
    rcases List.mem_cons.mp behind with rfl | digit
    · exact ⟨by decide, by decide⟩
    · exact digits digit whole
  · exact digits behind whole

theorem fields_plain {text : List Char} (plain : text.any isWild = false) :
    ∀ field ∈ text.splitOn '.', hasWild field = false := by
  induction text with
  | nil => simp [List.splitOn_nil, hasWild]
  | cons c rest ih =>
    rw [List.any_cons, Bool.or_eq_false_iff] at plain
    have behind := ih plain.2
    rw [List.splitOn_cons_eq_if_modifyHead]
    split
    · simpa [hasWild] using behind
    · rcases fields : rest.splitOn '.' with - | ⟨f, fs⟩
      · simp
      · rw [fields] at behind
        simpa [hasWild, plain.1] using behind

theorem field_wild {text : List Char} (wild : text.any isWild = true) :
    ∃ field ∈ (text.splitOn '.').drop (dotsBeforeWild text), hasWild field = true := by
  induction text with
  | nil => cases wild
  | cons c rest ih =>
    have some_field := List.splitOn_ne_nil '.' rest
    rw [List.splitOn_cons_eq_if_modifyHead]
    by_cases dot : c = '.'
    · subst dot
      rw [dotsBeforeWild_dot, if_pos (by decide), List.drop_succ_cons]
      exact ih wild
    rw [if_neg (by simpa using dot)]
    rcases fields : rest.splitOn '.' with - | ⟨f, fs⟩
    · exact absurd fields some_field
    cases here : isWild c with
    | true =>
      rw [dotsBeforeWild_wild here]
      exact ⟨c :: f, by simp, by simp [hasWild, here]⟩
    | false =>
      rw [List.any_cons, here, Bool.false_or] at wild
      obtain ⟨field, mem, found⟩ := ih wild
      rw [fields] at mem
      rw [dotsBeforeWild_other here dot]
      rcases before : dotsBeforeWild rest with - | k
      all_goals rw [before] at mem
      · rcases List.mem_cons.mp mem with rfl | mem
        · exact ⟨c :: field, by simp, by simpa [hasWild, here] using found⟩
        · exact ⟨field, by simp [mem], found⟩
      · exact ⟨field, by simpa using mem, found⟩

variable {mask : List Char}

theorem plainDomain_iff : PlainDomain mask ↔
    2 ≤ mask.count '.' ∧ ∀ field ∈ lastTwo mask, hasWild field = false := by
  simp [PlainDomain, hasWild]

theorem plainDomain_flags : PlainDomain mask ↔
    2 ≤ mask.count '.' ∧ wildFlags (false, false) ((mask.splitOn '.').map hasWild) = (false, false) := by
  rw [plainDomain_iff]
  refine and_congr_right fun two => ?_
  have fields := splitOn_length mask
  rw [wildFlags_last (by rw [List.length_map]; omega), List.length_map, ← List.map_drop, List.forall_mem_map]
  rfl

/-- With two dots before a wildcard, of at most three, the wildcard is in the last two fields. -/
theorem not_plainDomain (wild : mask.any isWild = true) (two : 2 ≤ dotsBeforeWild mask)
    (three : mask.count '.' ≤ 3) : ¬PlainDomain mask := by
  rw [plainDomain_iff]
  rintro ⟨-, plain⟩
  obtain ⟨field, mem, found⟩ := field_wild wild
  have fields := splitOn_length mask
  have last : field ∈ lastTwo mask := List.drop_subset_drop_left _ (by omega) mem
  rw [plain field last] at found
  cases found

theorem verdict_wild {s : MaskScan} (wild : s.wilds = true) : s.verdict ≠ .rejected ↔
    if s.ip = true ∧ s.dots ≤ 3 then 16 ≤ s.ipmask else 2 ≤ s.dots ∧ (s.wild0, s.wild1) = (false, false) := by
  obtain ⟨wild0, wild1, wilds, ip, halt, dots, ipmask⟩ := s
  obtain rfl : wilds = true := wild
  by_cases far : dots > 3
  · have two : ¬dots < 2 := by omega
    have not_short : ¬dots ≤ 3 := by omega
    have enough : 2 ≤ dots := by omega
    cases wild0 <;> cases wild1 <;> simp [MaskScan.verdict, far, two, not_short, enough]
  · have short : dots ≤ 3 := by omega
    cases ip
    · by_cases few : dots < 2
      · have enough : ¬2 ≤ dots := by omega
        simp [MaskScan.verdict, far, few, enough]
      · have enough : 2 ≤ dots := by omega
        cases wild0 <;> cases wild1 <;> simp [MaskScan.verdict, far, few, enough]
    · simp [MaskScan.verdict, far, short]

theorem verdict_halted {s : MaskScan} (address : s.ip = true) (none : s.dots = 0) {n : Nat} (high : n ≤ 128) :
    ({ s with ipmask := n, wilds := n < 128, halt := true } : MaskScan).verdict ≠ .rejected ↔ 16 ≤ n := by
  obtain ⟨wild0, wild1, wilds, ip, halt, dots, ipmask⟩ := s
  obtain rfl : ip = true := address
  obtain rfl : dots = 0 := none
  by_cases short : n < 128
  · simp [MaskScan.verdict, short]
  · have enough : 16 ≤ n := by omega
    simp [MaskScan.verdict, short, enough]

theorem accepts_plain (no_slash : '/' ∉ mask) (wild : mask.any isWild = true) :
    glineCheckmask mask ≠ .rejected ↔
      LooksLikeAddress mask ∧ 2 ≤ dotsBeforeWild mask ∨ ¬LooksLikeAddress mask ∧ PlainDomain mask := by
  obtain ⟨dots, wilds, ip, -⟩ := steps_counts mask .start
  have flags := steps_flags mask .start
  have bits := steps_bits mask (s := .start)
  rw [glineCheckmask, walk_plain no_slash]
  dsimp only
  generalize mask.foldl MaskScan.step .start = s at *
  have count : s.dots = mask.count '.' := by simpa [MaskScan.start] using dots
  have address : s.ip = true ∧ mask.count '.' ≤ 3 ↔ LooksLikeAddress mask := by
    rw [ip, LooksLikeAddress]
    simp [MaskScan.start]
  rw [verdict_wild (by rw [wilds, wild, Bool.or_true]), plainDomain_flags, flags, count, ← address]
  by_cases short : s.ip = true ∧ mask.count '.' ≤ 3
  · have read := bits short.1
    simp only [MaskScan.start, Bool.false_eq_true, if_false, Nat.zero_add] at read
    have enough : 16 ≤ 8 * dotsBeforeWild mask ↔ 2 ≤ dotsBeforeWild mask := by omega
    simp [short, read, enough]
  · simp [short, MaskScan.start]

theorem mask_slash (slash : '/' ∈ mask) :
    mask = mask.takeWhile (· ≠ '/') ++ '/' :: behindSlash mask := by
  induction mask with
  | nil => cases slash
  | cons c rest ih =>
    by_cases here : c = '/'
    · subst here
      rw [List.takeWhile_cons_of_neg (by decide), behindSlash_slash, List.nil_append]
    · rw [List.takeWhile_cons_of_pos (by simpa using here), behindSlash_other here, List.cons_append,
        ← ih ((List.mem_cons.mp slash).resolve_left (Ne.symm here))]

theorem front_scan (mask : List Char) :
    let s := (mask.takeWhile (· ≠ '/')).foldl MaskScan.step .start
    s.dots = (mask.takeWhile (· ≠ '/')).count '.' ∧ s.wilds = (mask.takeWhile (· ≠ '/')).any isWild ∧
      (s.ip = true ↔ ∀ c ∈ mask.takeWhile (· ≠ '/'), isIp6Char c = true ∨ isWild c = true) := by
  obtain ⟨dots, wilds, ip, -⟩ := steps_counts (mask.takeWhile (· ≠ '/')) .start
  refine ⟨by simpa [MaskScan.start] using dots, by simpa [MaskScan.start] using wilds, ?_⟩
  rw [ip, MaskScan.start, Bool.true_and, List.all_eq_true]
  simp only [Bool.or_eq_true]

/-- A mask with a slash is accepted with three dots, or with a number of bits behind an address without any. -/
theorem accepts_slash (slash : '/' ∈ mask) (accepted : glineCheckmask mask ≠ .rejected) :
    TakenForAddress mask ∨ PlainDomain mask := by
  obtain ⟨dots, wilds, ip⟩ := front_scan mask
  have shape := mask_slash slash
  rw [glineCheckmask, walk_slash slash] at accepted
  rw [TakenForAddress, if_pos slash]
  generalize front_eq : mask.takeWhile (· ≠ '/') = front at *
  generalize front.foldl MaskScan.step .start = s at *
  unfold MaskScan.bits at accepted
  dsimp only at accepted
  by_cases bad : (strtoulEnd (behindSlash mask) ≠ [] || s.wilds || !s.ip) = true
  · rw [if_pos bad] at accepted
    exact absurd rfl accepted
  rw [if_neg bad] at accepted
  simp only [Bool.or_eq_true, Bool.not_eq_true', not_or, Bool.not_eq_false, decide_eq_true_eq, not_not,
    Bool.not_eq_true] at bad
  obtain ⟨⟨number, no_wild⟩, address⟩ := bad
  rw [wilds] at no_wild
  have known : ∀ c ∈ front, isIp6Char c = true := by
    intro c mem
    exact (ip.mp address c mem).resolve_right (List.any_eq_false.mp no_wild c mem)
  by_cases none : s.dots = 0
  · rw [if_pos none] at accepted
    by_cases high : strtoul (behindSlash mask) % 2 ^ 32 > 128
    · rw [if_pos high] at accepted
      exact absurd rfl accepted
    rw [if_neg high] at accepted
    have low := (verdict_halted address none (by omega)).mp accepted
    rw [dots] at none
    refine .inl ⟨fun c mem => ⟨known c mem, ?_⟩, number, low, by omega⟩
    rintro rfl
    exact List.count_eq_zero.mp none mem
  · rw [if_neg none] at accepted
    by_cases three : s.dots = 3
    · have two : 2 ≤ mask.count '.' := by
        rw [shape, List.count_append]
        omega
      have plain : mask.any isWild = false := by
        rw [shape, List.any_append, List.any_cons, no_wild, List.any_eq_false.mpr]
        · rfl
        · intro c mem
          rw [(strtoulEnd_plain number c mem).2]
          exact Bool.false_ne_true
      refine .inr (plainDomain_iff.mpr ⟨two, fun field mem => fields_plain plain field ?_⟩)
      exact List.mem_of_mem_drop mem
    · rw [if_pos (by simp [three])] at accepted
      exact absurd rfl accepted

theorem taken_no_dot (slash : '/' ∈ mask) (taken : TakenForAddress mask) :
    '.' ∉ mask := by
  rw [TakenForAddress, if_pos slash] at taken
  rw [mask_slash slash, List.mem_append, List.mem_cons]
  rintro (mem | same | mem)
  · exact (taken.1 '.' mem).2 rfl
  · exact absurd same (by decide)
  · exact (strtoulEnd_plain taken.2.1 '.' mem).1 rfl

theorem taken_slash (slash : '/' ∈ mask) (taken : TakenForAddress mask) :
    glineCheckmask mask ≠ .rejected := by
  obtain ⟨dots, wilds, ip⟩ := front_scan mask
  have none := taken_no_dot slash taken
  rw [TakenForAddress, if_pos slash] at taken
  obtain ⟨front, number, low, high⟩ := taken
  rw [List.count_eq_zero.mpr fun mem => (front '.' mem).2 rfl] at dots
  rw [glineCheckmask, walk_slash slash]
  have plain : (mask.takeWhile (· ≠ '/')).any isWild = false := by
    rw [List.any_eq_false]
    intro c mem
    rw [not_isWild_iff.mpr ⟨?_, ?_⟩]
    · exact Bool.false_ne_true
    · rintro rfl
      exact absurd (front '*' mem).1 (by decide)
    · rintro rfl
      exact absurd (front '?' mem).1 (by decide)
  have address := ip.mpr fun c mem => .inl (front c mem).1
  rw [plain] at wilds
  generalize (mask.takeWhile (· ≠ '/')).foldl MaskScan.step .start = s at *
  have read : s.bits (behindSlash mask) = some { s with
      ipmask := strtoul (behindSlash mask) % 2 ^ 32
      wilds := strtoul (behindSlash mask) % 2 ^ 32 < 128
      halt := true } := by
    rw [MaskScan.bits, number, wilds, address, if_neg (by simp), if_pos dots, if_neg (by omega)]
  rw [read]
  exact (verdict_halted address dots high).mpr low

theorem taken_whole (taken : TakenForAddress mask) (whole : ReadsWhole mask) :
    WideAddress mask := by
  obtain ⟨read, reads, rest⟩ := whole
  refine ⟨read, reads, rest, ?_⟩
  by_cases slash : '/' ∈ mask
  · have no_dot := taken_no_dot slash taken
    rw [TakenForAddress, if_pos slash] at taken
    obtain ⟨front, number, low, high⟩ := taken
    have no_star : '*' ∉ mask := by
      rw [mask_slash slash, List.mem_append, List.mem_cons]
      rintro (mem | same | mem)
      · exact absurd (front '*' mem).1 (by decide)
      · exact absurd same (by decide)
      · exact absurd (strtoulEnd_plain number '*' mem).2 (by decide)
    obtain ⟨bits, kept, value⟩ := ipmaskParse_slash slash no_dot no_star reads
    obtain ⟨rfl, left⟩ := Prod.ext_iff.mp value
    dsimp only at left
    rw [rest] at left
    rw [readBits_strtoul high left.symm] at kept
    refine ⟨_, kept, ?_⟩
    unfold enoughBits
    split <;> omega
  · rw [TakenForAddress, if_neg slash] at taken
    exact ipmaskParse_parts slash taken.2 reads

theorem taken_no_domain (wide : mask.any isWild = true ∨ '/' ∈ mask) (taken : TakenForAddress mask) :
    ¬PlainDomain mask := by
  by_cases slash : '/' ∈ mask
  · rintro ⟨two, -⟩
    rw [List.count_eq_zero.mpr (taken_no_dot slash taken)] at two
    exact absurd two (by decide)
  · rw [TakenForAddress, if_neg slash] at taken
    exact not_plainDomain (wide.resolve_right slash) taken.2 taken.1.2

/-- What a mask that is not rejected should be, it is, unless it is taken for an address and is none. -/
theorem checkmask_wide_iff {mask : List Char} (wide : mask.any isWild = true ∨ '/' ∈ mask) :
    (glineCheckmask mask ≠ .rejected → WideAddress mask ∨ PlainDomain mask) ↔
      (TakenForAddress mask → ReadsWhole mask) := by
  constructor
  · intro promise taken
    have accepted : glineCheckmask mask ≠ .rejected := by
      by_cases slash : '/' ∈ mask
      · exact taken_slash slash taken
      · rw [TakenForAddress, if_neg slash] at taken
        exact (accepts_plain slash (wide.resolve_right slash)).mpr (.inl taken)
    obtain ⟨read, reads, rest, -⟩ := (promise accepted).resolve_right (taken_no_domain wide taken)
    exact ⟨read, reads, rest⟩
  · intro whole accepted
    have known : TakenForAddress mask ∨ PlainDomain mask := by
      by_cases slash : '/' ∈ mask
      · exact accepts_slash slash accepted
      · rw [TakenForAddress, if_neg slash]
        exact ((accepts_plain slash (wide.resolve_right slash)).mp accepted).imp_right And.right
    exact known.imp_left fun taken => taken_whole taken (whole taken)

theorem checkmask_wide_iff_net : (glineCheckmask "1.2.*".toList ≠ .rejected →
    WideAddress "1.2.*".toList ∨ PlainDomain "1.2.*".toList) ↔
      (TakenForAddress "1.2.*".toList → ReadsWhole "1.2.*".toList) :=
  checkmask_wide_iff (.inl (by decide +kernel))

/-- A host name of hexadecimal letters passes for an address, and its last field has a wildcard. -/
theorem hexHost_overridable : "a.b.c*".toList.any isWild = true ∧ glineCheckmask "a.b.c*".toList = .overridable ∧
    ¬(WideAddress "a.b.c*".toList ∨ PlainDomain "a.b.c*".toList) := by
  refine ⟨by decide +kernel, by decide +kernel, ?_⟩
  have unread : (ipmaskParse true "a.b.c*".toList).isNone = true := by decide +kernel
  rintro (⟨read, reads, -⟩ | ⟨-, plain⟩)
  · rw [reads] at unread
    cases unread
  · exact absurd (plain "c*".toList (by decide +kernel) '*' (by decide +kernel)) (by decide)

end Ircd.Glines
