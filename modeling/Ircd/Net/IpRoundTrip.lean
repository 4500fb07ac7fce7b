import Mathlib.Data.List.GetD
import Ircd.Net.IpText

/-! Reading back the text that `ircd_ntoa_r` prints.

The text names the words outside the run that the printer drops, so `ipmask_parse` gives back
the address with that run set to zero. The run is one of zeros unless the search for it has
joined two runs with other words between them.
-/

set_option autoImplicit false

namespace Ircd.Net
open Ircd.Text

def readOctet : List Char → Nat → Option Nat
  | [], part => some part
  | c :: rest, part =>
    if isDigit c then
      if part * 10 + digitValue c > 255 then none else readOctet rest (part * 10 + digitValue c)
    else none

theorem atonIp4Loop_octet {digits : List Char} {part value : Nat} (octet : readOctet digits part = some value)
    (rest : List Char) (dots ip : Nat) :
    atonIp4Loop true (digits ++ rest) dots part ip = atonIp4Loop true rest dots value ip := by
  induction digits generalizing part with
  | nil =>
    cases octet
    rfl
  | cons c digits ih =>
    rw [readOctet] at octet
    by_cases digit : isDigit c = true
    · rw [if_pos digit] at octet
      by_cases large : part * 10 + digitValue c > 255
      · rw [if_pos large] at octet
        exact absurd octet nofun
      · rw [if_neg large] at octet
        have not_dot : c ≠ '.' := by
          rintro rfl
          exact absurd digit (by decide)
        have not_slash : c ≠ '/' := by
          rintro rfl
          exact absurd digit (by decide)
        rw [List.cons_append, atonIp4Loop, if_neg not_dot, if_neg not_slash, if_pos digit, if_neg large]
        exact ih octet
    · rw [if_neg digit] at octet
      exact absurd octet nofun

theorem ipQuad_octet : ∀ n : Fin 256, readOctet (ipQuad n) 0 = some n.val ∧ isDigit (peek (ipQuad n)) = true ∧
    ipQuad n ≠ [] ∧ ':' ∉ ipQuad n := by
  decide +kernel

theorem ipQuad_spec {n : Nat} (small : n < 256) : readOctet (ipQuad n) 0 = some n ∧
    isDigit (peek (ipQuad n)) = true ∧ ipQuad n ≠ [] ∧ ':' ∉ ipQuad n :=
  ipQuad_octet ⟨n, small⟩

theorem atonIp4Loop_dot {n : Nat} (small : n < 256) (rest : List Char) {dots : Nat} (few : dots < 3) (part ip : Nat) :
    atonIp4Loop true ('.' :: (ipQuad n ++ rest)) dots part ip =
      atonIp4Loop true rest (dots + 1) n (ip ||| part <<< (32 - 8 * (dots + 1))) := by
  obtain ⟨octet, digit, some_quad, _⟩ := ipQuad_spec small
  obtain ⟨c, tail, shape⟩ := List.exists_cons_of_ne_nil some_quad
  have head : peek (ipQuad n ++ rest) = peek (ipQuad n) := by rw [shape]; rfl
  have not_dot : peek (ipQuad n ++ rest) ≠ '.' := by
    intro same
    rw [head] at same
    rw [same] at digit
    exact absurd digit (by decide)
  have not_star : peek (ipQuad n ++ rest) ≠ '*' := by
    intro same
    rw [head] at same
    rw [same] at digit
    exact absurd digit (by decide)
  have more : ¬ (dots + 1 > 3 ∨ peek (ipQuad n ++ rest) = '.') := by
    rintro (many | dot)
    · omega
    · exact not_dot dot
  rw [atonIp4Loop, if_pos rfl, if_neg more, if_neg not_star]
  exact atonIp4Loop_octet octet rest (dots + 1) _

theorem quad_value {a b c d : Nat} (small_b : b < 256) (small_c : c < 256) (small_d : d < 256) :
    (((0 ||| a <<< 24) ||| b <<< 16) ||| c <<< 8) ||| d <<< 0 = ((a * 256 + b) * 256 + c) * 256 + d := by
  have join (x y : Nat) (small : y < 256) : x <<< 8 ||| y = x * 256 + y := by
    rw [← Nat.shiftLeft_add_eq_or_of_lt (show y < 2 ^ 8 from small), Nat.shiftLeft_eq]
  have high : a <<< 24 = ((a <<< 8) <<< 8) <<< 8 := by simp only [← Nat.shiftLeft_add]
  have middle : b <<< 16 = (b <<< 8) <<< 8 := by simp only [← Nat.shiftLeft_add]
  rw [Nat.zero_or, high, middle, ← Nat.shiftLeft_or_distrib, ← Nat.shiftLeft_or_distrib, ← Nat.shiftLeft_or_distrib,
    join a b small_b, join _ c small_c, Nat.shiftLeft_zero, join _ d small_d]

theorem ircdAtonIp4_quad {a b c d : Nat} (small_a : a < 256) (small_b : b < 256) (small_c : c < 256)
    (small_d : d < 256) :
    ircdAtonIp4 true (ipQuad a ++ '.' :: ipQuad b ++ '.' :: ipQuad c ++ '.' :: ipQuad d) =
      some ⟨((a * 256 + b) * 256 + c) * 256 + d, 32, []⟩ := by
  obtain ⟨octet, digit, some_quad, _⟩ := ipQuad_spec small_a
  obtain ⟨first, tail, shape⟩ := List.exists_cons_of_ne_nil some_quad
  have not_dot : peek (ipQuad a ++ ('.' :: (ipQuad b ++ '.' :: (ipQuad c ++ '.' :: (ipQuad d ++ []))))) ≠ '.' := by
    rw [shape, List.cons_append, peek_cons]
    rintro rfl
    rw [shape, peek_cons] at digit
    exact absurd digit (by decide)
  have text : ipQuad a ++ '.' :: ipQuad b ++ '.' :: ipQuad c ++ '.' :: ipQuad d =
      ipQuad a ++ ('.' :: (ipQuad b ++ '.' :: (ipQuad c ++ '.' :: (ipQuad d ++ [])))) := by simp
  rw [text, ircdAtonIp4, if_neg not_dot, atonIp4Loop_octet octet, atonIp4Loop_dot small_b _ (by decide),
    atonIp4Loop_dot small_c _ (by decide), atonIp4Loop_dot small_d _ (by decide), atonIp4Loop]
  simp only [Nat.reduceAdd, Nat.reduceMul, Nat.reduceSub, Nat.lt_irrefl, if_false, quad_value small_b small_c small_d]

theorem colonFirst_none {input : List Char} (absent : ':' ∉ input) : colonFirst input = false := by
  rw [colonFirst, List.idxOf?_eq_none_iff.mpr absent]

theorem parse_ipv4 {a : InAddr} (v4 : a.isIpv4 = true) :
    ipmaskParse true (ircdNtoaR a) = some ⟨a.canonical, some 128, []⟩ := by
  have small_high : (a.word 6).toNat < 65536 := (a.word 6).toNat_lt
  have small_low : (a.word 7).toNat < 65536 := (a.word 7).toNat_lt
  have small (n : Nat) : n % 256 < 256 := Nat.mod_lt n (by decide)
  have quad := ircdAtonIp4_quad (show (a.word 6).toNat / 256 < 256 by omega) (small (a.word 6).toNat)
    (show (a.word 7).toNat / 256 < 256 by omega) (small (a.word 7).toNat)
  have no_colon : ':' ∉ ircdNtoaR a := by
    simp only [ircdNtoaR, v4, if_true, List.mem_append, List.mem_cons, not_or]
    exact ⟨⟨⟨(ipQuad_spec (by omega)).2.2.2, by decide, (ipQuad_spec (small _)).2.2.2⟩, by decide,
      (ipQuad_spec (by omega)).2.2.2⟩, by decide, (ipQuad_spec (small _)).2.2.2⟩
  have dotted : '.' ∈ ircdNtoaR a ∨ '/' ∈ ircdNtoaR a := by
    simp [ircdNtoaR, v4]
  have value : (((a.word 6).toNat / 256 * 256 + (a.word 6).toNat % 256) * 256 + (a.word 7).toNat / 256) * 256 +
      (a.word 7).toNat % 256 = (a.word 6).toNat * 65536 + (a.word 7).toNat := by omega
  have high : ((a.word 6).toNat * 65536 + (a.word 7).toNat) >>> 16 = (a.word 6).toNat := by
    rw [Nat.shiftRight_eq_div_pow]
    omega
  have low : ((a.word 6).toNat * 65536 + (a.word 7).toNat) &&& 65535 = (a.word 7).toNat := by
    rw [show 65535 = 2 ^ 16 - 1 from rfl, Nat.and_two_pow_sub_one_eq_mod]
    omega
  rw [ipmaskParse, colonFirst_none no_colon, if_neg Bool.false_ne_true, if_pos dotted, parseIp4, ircdNtoaR, if_pos v4,
    quad, value]
  simp only [high, low, writeBits, if_true, InAddr.canonical, v4]
  congr 2
  apply InAddr.ext_words
  simp [InAddr.set, zeroAddr, InAddr.mapped]

def readHex : List Char → Nat → Option Nat
  | [], part => some part
  | c :: rest, part =>
    match hexValue c with
    | some chval => if part <<< 4 ||| chval > 0xffff then none else readHex rest (part <<< 4 ||| chval)
    | none => none

theorem hexValue_hexDigit : ∀ d : Fin 16, hexValue (hexDigit d) = some d.val := by decide

theorem readHex_digit {d part : Nat} (digit : d < 16) (fits : part * 16 + d ≤ 0xffff) (rest : List Char) :
    readHex (hexDigit d :: rest) part = readHex rest (part * 16 + d) := by
  have joined : part <<< 4 ||| d = part * 16 + d := by
    rw [← Nat.shiftLeft_add_eq_or_of_lt (show d < 2 ^ 4 from digit), Nat.shiftLeft_eq]
  have chval : hexValue (hexDigit d) = some d := hexValue_hexDigit ⟨d, digit⟩
  simp only [readHex, chval, joined, if_neg (Nat.not_lt.mpr fits)]

theorem hexWord_eq (n : Nat) : hexWord n =
    (if n ≥ 0x1000 then [hexDigit (n / 4096)] else []) ++ (if n ≥ 0x100 then [hexDigit (n / 256 % 16)] else []) ++
      (if n ≥ 0x10 then [hexDigit (n / 16 % 16)] else []) ++ [hexDigit (n % 16)] := by
  have low (m : Nat) : m &&& 15 = m % 16 := Nat.and_two_pow_sub_one_eq_mod m 4
  simp only [hexWord, low, Nat.shiftRight_eq_div_pow]

theorem readHex_hexWord {n : Nat} (small : n < 65536) : readHex (hexWord n) 0 = some n := by
  rw [hexWord_eq]
  by_cases four : n ≥ 0x1000
  · have three : n ≥ 0x100 := by omega
    have two : n ≥ 0x10 := by omega
    simp only [four, three, two, if_true, List.cons_append, List.nil_append]
    rw [readHex_digit (by omega) (by omega), readHex_digit (by omega) (by omega), readHex_digit (by omega) (by omega),
      readHex_digit (by omega) (by omega), readHex]
    congr 1
    omega
  · by_cases three : n ≥ 0x100
    · have two : n ≥ 0x10 := by omega
      simp only [four, three, two, if_true, if_false, List.cons_append, List.nil_append]
      rw [readHex_digit (by omega) (by omega), readHex_digit (by omega) (by omega),
        readHex_digit (by omega) (by omega), readHex]
      congr 1
      omega
    · by_cases two : n ≥ 0x10
      · simp only [four, three, two, if_true, if_false, List.cons_append, List.nil_append]
        rw [readHex_digit (by omega) (by omega), readHex_digit (by omega) (by omega), readHex]
        congr 1
        omega
      · simp only [four, three, two, if_false, List.nil_append]
        rw [readHex_digit (by omega) (by omega), readHex]
        congr 1
        omega

theorem hexWord_digits {n : Nat} (small : n < 65536) :
    (∃ c rest, hexWord n = c :: rest) ∧ ∀ c ∈ hexWord n, (hexValue c).isSome := by
  have digit {d : Nat} (less : d < 16) : (hexValue (hexDigit d)).isSome := by
    rw [show hexValue (hexDigit d) = some d from hexValue_hexDigit ⟨d, less⟩]
    rfl
  constructor
  · exact List.exists_cons_of_ne_nil (by simp [hexWord])
  · intro c mem
    rw [hexWord_eq] at mem
    simp only [List.mem_append, List.mem_ite_nil_right, List.mem_singleton] at mem
    rcases mem with ((⟨_, rfl⟩ | ⟨_, rfl⟩) | ⟨_, rfl⟩) | rfl
    · exact digit (by omega)
    · exact digit (by omega)
    · exact digit (by omega)
    · exact digit (by omega)

theorem hexValue_colon : hexValue ':' = none := by decide

theorem hexValue_dot : hexValue '.' = none := by decide

theorem ip6Loop_hex {digits : List Char} {s : Ip6} {value : Nat} (word : readHex digits s.part = some value)
    (room : s.ii < 8) (rest : List Char) :
    ip6Loop true (digits ++ rest) s = ip6Loop true rest { s with part := value } := by
  induction digits generalizing s with
  | nil =>
    cases word
    rfl
  | cons c digits ih =>
    rw [readHex] at word
    cases digit : hexValue c with
    | none =>
      rw [digit] at word
      exact absurd word nofun
    | some chval =>
      simp only [digit] at word
      by_cases large : s.part <<< 4 ||| chval > 0xffff
      · rw [if_pos large] at word
        exact absurd word nofun
      · rw [if_neg large] at word
        have not_colon : c ≠ ':' := by
          rintro rfl
          exact absurd (digit.symm.trans hexValue_colon) nofun
        rw [List.cons_append, ip6Loop, if_pos room, digit]
        · simp only [if_neg large]
          exact ih word room
        · intro after same
          exact absurd same not_colon

theorem InAddr.word_set (a : InAddr) {i : Nat} (less : i < 8) (part k : Nat) :
    (a.set i part).word k = if k = i then UInt16.ofNat part else a.word k := by
  have bound : i < a.words.length := by rw [a.length_eq]; exact less
  by_cases same : k = i
  · subst same
    simp [InAddr.word, InAddr.set, bound]
  · simp [InAddr.word, InAddr.set, same, List.getElem?_set_ne (Ne.symm same)]

theorem InAddr.ext_word {a b : InAddr} (same : ∀ k < 8, a.word k = b.word k) : a = b := by
  apply InAddr.ext_words
  apply List.ext_getElem (a.length_eq.trans b.length_eq.symm)
  intro k in_a in_b
  have word := same k (a.length_eq ▸ in_a)
  simpa [InAddr.word, in_a, in_b] using word

/-- The loop has stored the words `ws` and begins a part. -/
structure Ip6.Stored (s : Ip6) (ws : List UInt16) : Prop where
  part : s.part = 0
  ii : s.ii = ws.length
  words : ∀ k < 8, s.ip.word k = ws.getD k 0

theorem getD_append_word (ws : List UInt16) (w : UInt16) (k : Nat) :
    (ws ++ [w]).getD k 0 = if k = ws.length then w else ws.getD k 0 := by
  rcases Nat.lt_trichotomy k ws.length with before | same | after
  · rw [if_neg (by omega), List.getD_append _ _ _ _ before]
  · subst same
    simp
  · rw [if_neg (by omega), List.getD_eq_default _ _ (by simp; omega), List.getD_eq_default _ _ (by omega)]

variable {ws : List UInt16}

theorem Ip6.Stored.store {s : Ip6} (stored : s.Stored ws) (room : s.ii < 8) (w : UInt16) :
    ({ s with part := w.toNat } : Ip6).store.Stored (ws ++ [w]) := by
  refine ⟨rfl, ?_, ?_⟩
  · simp [Ip6.store, stored.ii]
  · intro k less
    simp only [Ip6.store, InAddr.word_set _ room, UInt16.ofNat_toNat, getD_append_word, ← stored.ii]
    by_cases same : k = s.ii
    · rw [if_pos same, if_pos same]
    · rw [if_neg same, if_neg same]
      exact stored.words k less

def Digits (text : List Char) : Prop := (hexValue (peek text)).isSome

theorem ip6Loop_word {s : Ip6} (stored : s.Stored ws) (room : s.ii < 8) (w : UInt16) {rest : List Char}
    (digits : Digits rest) :
    ∃ next, ip6Loop true (hexWord w.toNat ++ ':' :: rest) s = ip6Loop true rest next ∧ next.Stored (ws ++ [w]) ∧
      next.colon = s.colon := by
  have word : readHex (hexWord w.toNat) s.part = some w.toNat := by
    rw [stored.part]
    exact readHex_hexWord w.toNat_lt
  have stores := stored.store room w
  refine ⟨{ ({ s with part := w.toNat } : Ip6).store with partStart := rest }, ?_, ⟨stores.1, stores.2, stores.3⟩, rfl⟩
  have not_dot : peek rest ≠ '.' := by
    intro same
    rw [Digits, same, hexValue_dot] at digits
    exact absurd digits nofun
  rw [ip6Loop_hex word room, ip6Loop, if_pos room, hexValue_colon]
  · simp only [if_true, if_neg not_dot]
  · intro after _ same
    rw [Digits, same, peek_cons, hexValue_colon] at digits
    exact absurd digits nofun

theorem ip6Loop_double {s : Ip6} (stored : s.Stored ws) (room : s.ii + 1 < 8) (fresh : s.colon = 8) (w : UInt16)
    (rest : List Char) :
    ∃ next, ip6Loop true (hexWord w.toNat ++ ':' :: ':' :: rest) s = ip6Loop true rest next ∧
      next.Stored (ws ++ [w]) ∧ next.colon = ws.length + 1 := by
  have before : s.ii < 8 := Nat.lt_of_succ_lt room
  have word : readHex (hexWord w.toNat) s.part = some w.toNat := by
    rw [stored.part]
    exact readHex_hexWord w.toNat_lt
  have stores := stored.store before w
  refine ⟨{ ({ s with part := w.toNat } : Ip6).store with partStart := ':' :: rest, colon := s.ii + 1 }, ?_,
    ⟨stores.1, stores.2, stores.3⟩, by rw [stored.ii]⟩
  have open_place : ¬ (s.colon < 8 ∨ s.ii + 1 = 8) := by omega
  rw [ip6Loop_hex word before, ip6Loop, if_pos before, if_neg open_place]

theorem ip6Loop_end {s : Ip6} (stored : s.Stored ws) (room : s.ii < 8) (complete : s.colon < 8 ∨ ws.length = 7)
    (w : UInt16) :
    ∃ last : Ip6, ip6Loop true (hexWord w.toNat) s = some ⟨last.spread, some 128, []⟩ ∧ last.Stored (ws ++ [w]) ∧
      last.colon = s.colon := by
  have word : readHex (hexWord w.toNat) s.part = some w.toNat := by
    rw [stored.part]
    exact readHex_hexWord w.toNat_lt
  refine ⟨({ s with part := w.toNat } : Ip6).store, ?_, stored.store room w, rfl⟩
  have ii := stored.ii
  have whole : ¬ (s.colon = 8 ∧ s.ii + 1 < 8) := by omega
  rw [← List.append_nil (hexWord w.toNat), ip6Loop_hex word room, ip6Loop, if_pos room, if_neg whole]
  rfl

theorem moved_word (ip : InAddr) (ii count : Nat) (within : ii ≤ 8) (few : count ≤ ii) (k : Nat) (less : k < 8) :
    ((List.range count).foldl (fun ip jj => ip.set (7 - jj) (ip.word (ii - jj - 1)).toNat) ip).word k =
      if 8 - count ≤ k then ip.word (k - (8 - ii)) else ip.word k := by
  induction count generalizing k with
  | zero => rw [if_neg (by omega)]; rfl
  | succ count ih =>
    rw [List.range_succ, List.foldl_append, List.foldl_cons, List.foldl_nil, InAddr.word_set _ (by omega),
      UInt16.ofNat_toNat, ih (by omega) k less, ih (by omega) (ii - count - 1) (by omega)]
    by_cases here : k = 7 - count
    · rw [if_pos here, if_neg (by omega), if_pos (by omega)]
      congr 1
      omega
    · rw [if_neg here]
      by_cases after : 8 - count ≤ k
      · rw [if_pos after, if_pos (by omega)]
      · rw [if_neg after, if_neg (by omega)]

theorem filled_word (ip : InAddr) (colon count : Nat) (within : colon + count ≤ 8) (k : Nat) :
    ((List.range count).foldl (fun ip jj => ip.set (colon + jj) 0) ip).word k =
      if colon ≤ k ∧ k < colon + count then 0 else ip.word k := by
  induction count with
  | zero => rw [if_neg (by omega)]; rfl
  | succ count ih =>
    rw [List.range_succ, List.foldl_append, List.foldl_cons, List.foldl_nil, InAddr.word_set _ (by omega),
      ih (by omega)]
    by_cases here : k = colon + count
    · rw [if_pos here, if_pos (by omega)]
      rfl
    · rw [if_neg here]
      by_cases inside : colon ≤ k ∧ k < colon + count
      · rw [if_pos inside, if_pos (by omega)]
      · rw [if_neg inside, if_neg (by omega)]

/-- An address with a run of zeros between the words `pre` and `post`. -/
def withZeros (pre post : List UInt16) (within : pre.length + post.length ≤ 8) : InAddr :=
  ⟨pre ++ List.replicate (8 - (pre.length + post.length)) 0 ++ post, by
    simp only [List.length_append, List.length_replicate]
    omega⟩

theorem withZeros_word (pre post : List UInt16) (within : pre.length + post.length ≤ 8) (k : Nat) :
    (withZeros pre post within).word k =
      if k < pre.length then pre.getD k 0 else if k < 8 - post.length then 0 else post.getD (k - (8 - post.length)) 0 := by
  have length : (pre ++ List.replicate (8 - (pre.length + post.length)) (0 : UInt16)).length = 8 - post.length := by
    rw [List.length_append, List.length_replicate]
    omega
  rw [InAddr.word, withZeros]
  by_cases before : k < 8 - post.length
  · rw [List.getD_append _ _ _ _ (by omega)]
    by_cases first : k < pre.length
    · rw [List.getD_append _ _ _ _ first, if_pos first]
    · rw [List.getD_append_right _ _ _ _ (by omega), if_neg first, if_pos before]
      simp
  · rw [List.getD_append_right _ _ _ _ (by omega), if_neg (by omega), if_neg before, length]

theorem Ip6.Stored.spread {s : Ip6} {pre post : List UInt16} (stored : s.Stored (pre ++ post))
    (colon : s.colon = pre.length) (within : pre.length + post.length ≤ 8) (early : pre.length < 8) :
    s.spread = withZeros pre post within := by
  have ii : s.ii = pre.length + post.length := by rw [stored.ii, List.length_append]
  have words (k : Nat) (less : k < 8) : s.ip.word k = if k < pre.length then pre.getD k 0 else post.getD (k - pre.length) 0 := by
    rw [stored.words k less]
    by_cases before : k < pre.length
    · rw [List.getD_append _ _ _ _ before, if_pos before]
    · rw [List.getD_append_right _ _ _ _ (by omega), if_neg before]
  apply InAddr.ext_word
  intro k less
  rw [Ip6.spread, if_pos (by omega), filled_word _ _ _ (by omega), moved_word _ _ _ (by omega) (by omega) k less,
    withZeros_word]
  by_cases before : k < pre.length
  · rw [if_neg (by omega), if_neg (by omega), if_pos before, words k less, if_pos before]
  · by_cases middle : k < 8 - post.length
    · rw [if_pos (by omega), if_neg before, if_pos middle]
    · rw [if_neg (by omega), if_pos (by omega), if_neg before, if_neg middle, words _ (by omega), if_neg (by omega)]
      congr 1
      omega

def joined : List UInt16 → List Char
  | [] => []
  | [w] => hexWord w.toNat
  | w :: v :: rest => hexWord w.toNat ++ ':' :: joined (v :: rest)

def ended (ws : List UInt16) : List Char := ws.flatMap fun w => hexWord w.toNat ++ [':']

theorem digits_hexWord (w : UInt16) (rest : List Char) : Digits (hexWord w.toNat ++ rest) := by
  obtain ⟨⟨c, tail, shape⟩, all_digits⟩ := hexWord_digits w.toNat_lt
  rw [Digits, shape, List.cons_append, peek_cons]
  apply all_digits
  rw [shape]
  exact List.mem_cons_self

theorem digits_joined (w : UInt16) (rest : List UInt16) : Digits (joined (w :: rest)) := by
  cases rest with
  | nil =>
    have digits := digits_hexWord w []
    rwa [List.append_nil] at digits
  | cons v rest => exact digits_hexWord w _

theorem ip6Loop_joined {s : Ip6} (w : UInt16) (rest : List UInt16) (stored : s.Stored ws)
    (within : ws.length + (w :: rest).length ≤ 8) (complete : s.colon < 8 ∨ ws.length + (w :: rest).length = 8) :
    ∃ last : Ip6, ip6Loop true (joined (w :: rest)) s = some ⟨last.spread, some 128, []⟩ ∧
      last.Stored (ws ++ w :: rest) ∧ last.colon = s.colon := by
  have ii := stored.ii
  induction rest generalizing s ws w with
  | nil =>
    simp only [List.length_cons, List.length_nil] at within complete
    exact ip6Loop_end stored (by omega) (by omega) w
  | cons v rest ih =>
    simp only [List.length_cons] at within complete
    obtain ⟨next, step, stored, colon⟩ := ip6Loop_word stored (by omega) w (digits_joined v rest)
    have length : (ws ++ [w]).length = ws.length + 1 := by simp
    obtain ⟨last, loop, stored, same⟩ := ih v stored (by simp; omega) (by simp; omega) stored.ii
    refine ⟨last, step.trans loop, ?_, same.trans colon⟩
    rwa [List.append_assoc] at stored

theorem ip6Loop_ended {s : Ip6} (pre : List UInt16) (w : UInt16) (stored : s.Stored ws)
    (room : ws.length + pre.length + 1 < 8) (fresh : s.colon = 8) (rest : List Char) :
    ∃ next, ip6Loop true (ended (pre ++ [w]) ++ ':' :: rest) s = ip6Loop true rest next ∧
      next.Stored (ws ++ (pre ++ [w])) ∧ next.colon = ws.length + pre.length + 1 := by
  have ii := stored.ii
  induction pre generalizing s ws with
  | nil =>
    obtain ⟨next, step, stored, colon⟩ := ip6Loop_double stored (by simp at room; omega) fresh w rest
    refine ⟨next, ?_, stored, colon⟩
    rw [← step]
    simp [ended]
  | cons v pre ih =>
    simp only [List.length_cons] at room
    have digits : Digits (ended (pre ++ [w]) ++ ':' :: rest) := by
      cases pre with
      | nil => simpa [ended] using digits_hexWord w (':' :: ':' :: rest)
      | cons u pre => simpa [ended] using digits_hexWord u _
    obtain ⟨next, step, stored, colon⟩ := ip6Loop_word stored (by omega) v digits
    have length : (ws ++ [v]).length = ws.length + 1 := by simp
    obtain ⟨last, loop, stored, place⟩ := ih stored (by omega) (colon.trans fresh) stored.ii
    refine ⟨last, ?_, ?_, ?_⟩
    · rw [← loop, ← step]
      simp [ended]
    · simpa using stored
    · rw [place, length, List.length_cons]
      omega

theorem InAddr.drop_eq_cons (a : InAddr) {ii : Nat} (less : ii < 8) :
    a.words.drop ii = a.word ii :: a.words.drop (ii + 1) := by
  have bound : ii < a.words.length := by rw [a.length_eq]; exact less
  rw [List.drop_eq_getElem_cons bound, InAddr.word, List.getD_eq_getElem _ _ bound]

theorem printWords_after (a : InAddr) {maxStart maxZeros : Nat} (rounds ii : Nat) (enough : 8 ≤ ii + rounds)
    (behind : maxZeros = 0 ∨ maxStart < ii) : printWords a maxStart maxZeros rounds ii = joined (a.words.drop ii) := by
  induction rounds generalizing ii with
  | zero =>
    have past : a.words.drop ii = [] := List.drop_eq_nil_of_le (by rw [a.length_eq]; omega)
    rw [printWords, past, joined]
  | succ rounds ih =>
    by_cases less : ii < 8
    · have other : ¬ (maxZeros > 0 ∧ ii = maxStart) := by omega
      rw [printWords, if_pos less, if_neg other, ih (ii + 1) (by omega) (by omega), a.drop_eq_cons less]
      by_cases more : ii < 7
      · rw [if_pos more, a.drop_eq_cons (show ii + 1 < 8 by omega)]
        simp [joined]
      · have past : a.words.drop (ii + 1) = [] := List.drop_eq_nil_of_le (by rw [a.length_eq]; omega)
        rw [if_neg more, past]
        simp [joined]
    · have past : a.words.drop ii = [] := List.drop_eq_nil_of_le (by rw [a.length_eq]; omega)
      rw [printWords, if_neg less, past, joined]

theorem printWords_before (a : InAddr) {maxStart maxZeros : Nat} (some_zeros : 0 < maxZeros)
    (within : maxStart + maxZeros ≤ 8) (rounds ii : Nat) (enough : 8 ≤ ii + rounds) (before : ii ≤ maxStart) :
    printWords a maxStart maxZeros rounds ii =
      ended ((a.words.drop ii).take (maxStart - ii)) ++ ':' :: joined (a.words.drop (maxStart + maxZeros)) := by
  induction rounds generalizing ii with
  | zero => omega
  | succ rounds ih =>
    rw [printWords, if_pos (by omega)]
    by_cases here : ii = maxStart
    · subst here
      rw [if_pos ⟨some_zeros, rfl⟩, printWords_after a rounds _ (by omega) (by omega), Nat.sub_self, List.take_zero]
      simp only [ended, List.flatMap_nil, List.nil_append]
      congr 3
      omega
    · have other : ¬ (maxZeros > 0 ∧ ii = maxStart) := by omega
      have left : maxStart - ii = maxStart - (ii + 1) + 1 := by omega
      rw [if_neg other, if_pos (by omega), ih (ii + 1) (by omega) (by omega), a.drop_eq_cons (show ii < 8 by omega), left,
        List.take_succ_cons]
      simp [ended]

theorem colonFirst_mem {input : List Char} (colon : ':' ∈ input) (no_dot : '.' ∉ input) : colonFirst input = true := by
  obtain ⟨place, found⟩ := Option.ne_none_iff_exists'.mp (fun none => List.idxOf?_eq_none_iff.mp none colon)
  rw [colonFirst, found, List.idxOf?_eq_none_iff.mpr no_dot]

theorem dot_not_mem_hexWord (w : UInt16) : '.' ∉ hexWord w.toNat := by
  intro mem
  have digit := (hexWord_digits w.toNat_lt).2 '.' mem
  rw [hexValue_dot] at digit
  exact absurd digit nofun

theorem dot_not_mem_joined (ws : List UInt16) : '.' ∉ joined ws := by
  induction ws using joined.induct with
  | case1 => exact List.not_mem_nil
  | case2 w => exact dot_not_mem_hexWord w
  | case3 w v rest ih => simp [joined, dot_not_mem_hexWord, ih]

theorem dot_not_mem_ended (ws : List UInt16) : '.' ∉ ended ws := by
  simp [ended, dot_not_mem_hexWord]

theorem start_stored : (⟨0, 0, 8, [], zeroAddr⟩ : Ip6).Stored [] := by
  refine ⟨rfl, rfl, ?_⟩
  decide

theorem parseIp6_digits {input : List Char} (digits : Digits input) :
    parseIp6 true input = ip6Loop true input ⟨0, 0, 8, [], zeroAddr⟩ := by
  rw [parseIp6]
  intro after same
  rw [Digits, same, peek_cons, hexValue_colon] at digits
  exact absurd digits nofun

theorem parse_joined {a : InAddr} :
    ipmaskParse true (joined a.words) = some ⟨a, some 128, []⟩ := by
  obtain ⟨w, v, rest, shape⟩ : ∃ w v rest, a.words = w :: v :: rest := by
    have length := a.length_eq
    match same : a.words with
    | [] => rw [same] at length; exact absurd length nofun
    | [w] => rw [same] at length; exact absurd length nofun
    | w :: v :: rest => exact ⟨w, v, rest, rfl⟩
  have length : rest.length = 6 := by
    have length := a.length_eq
    rw [shape] at length
    simpa using length
  have colon : ':' ∈ joined (w :: v :: rest) := by simp [joined]
  obtain ⟨last, loop, stored, none_seen⟩ := ip6Loop_joined w (v :: rest) start_stored (by simp [length]) (by simp [length])
  have whole : last.spread = a := by
    rw [Ip6.spread, if_neg (by rw [none_seen]; decide)]
    apply InAddr.ext_word
    intro k less
    rw [stored.words k less, List.nil_append, ← shape]
    rfl
  rw [shape, ipmaskParse, colonFirst_mem colon (dot_not_mem_joined _), if_pos rfl, parseIp6_digits (digits_joined w _),
    loop, whole]

theorem parse_dropped (pre : List UInt16) (w : UInt16) (post : List UInt16)
    (within : (pre ++ [w]).length + post.length < 8) :
    ipmaskParse true (ended (pre ++ [w]) ++ ':' :: joined post) =
      some ⟨withZeros (pre ++ [w]) post (Nat.le_of_lt within), some 128, []⟩ := by
  have length : (pre ++ [w]).length = pre.length + 1 := by simp
  have colon : ':' ∈ ended (pre ++ [w]) ++ ':' :: joined post := by simp
  have no_dot : '.' ∉ ended (pre ++ [w]) ++ ':' :: joined post := by
    simp [dot_not_mem_ended, dot_not_mem_joined]
  have digits : Digits (ended (pre ++ [w]) ++ ':' :: joined post) := by
    cases pre with
    | nil => simpa [ended] using digits_hexWord w (':' :: ':' :: joined post)
    | cons u pre => simpa [ended] using digits_hexWord u _
  obtain ⟨next, step, stored, place⟩ := ip6Loop_ended pre w start_stored (by simp; omega) rfl (joined post)
  rw [ipmaskParse, colonFirst_mem colon no_dot, if_pos rfl, parseIp6_digits digits, step]
  rw [List.nil_append] at stored
  have early : next.colon < 8 := by rw [place]; simp; omega
  cases post with
  | nil =>
    -- The end of the text right behind `::` stores one more zero.
    have ii := stored.ii
    have room : next.ii < 8 := by omega
    have unchanged : ({ next with part := (0 : UInt16).toNat } : Ip6) = next := by
      rw [show (0 : UInt16).toNat = next.part from stored.part.symm]
    have last := stored.store room 0
    rw [unchanged] at last
    have spread := last.spread (place.trans (by simp)) (by simp at within ⊢; omega) (by simp at within ⊢; omega)
    have one_more : withZeros (pre ++ [w]) [0] (by simp at within ⊢; omega) =
        withZeros (pre ++ [w]) [] (Nat.le_of_lt within) := by
      apply InAddr.ext_words
      have left : 8 - ((pre ++ [w]).length + 0) = 8 - ((pre ++ [w]).length + 1) + 1 := by simp at within ⊢; omega
      simp only [withZeros, List.length_cons, List.length_nil, List.append_nil, left, Nat.zero_add]
      rw [List.replicate_succ', List.append_assoc]
    rw [joined, ip6Loop, if_pos room, if_neg (by omega), spread, one_more]
    rfl
  | cons v post =>
    obtain ⟨last, loop, stored, same⟩ := ip6Loop_joined v post stored (by simp at within ⊢; omega) (.inl early)
    rw [loop, stored.spread (same.trans (by rw [place, length]; simp)) (Nat.le_of_lt within) (by omega)]

def runLengths : Nat → List Bool → List Nat
  | 0, [] => []
  | n + 1, [] => [n + 1]
  | n, true :: rest => runLengths (n + 1) rest
  | 0, false :: rest => runLengths 0 rest
  | n + 1, false :: rest => (n + 1) :: runLengths 0 rest

def InAddr.zeroRuns (a : InAddr) : List Nat := runLengths 0 (a.words.tail.map fun w => decide (w = 0))

/-- Of the first three runs, the second is longer than the first, or the second and the
third together are not. -/
def apart : List Nat → Prop
  | first :: second :: third :: _ => first < second ∨ second + third ≤ first
  | _ => True

instance : (runs : List Nat) → Decidable (apart runs)
  | first :: second :: third :: _ => inferInstanceAs (Decidable (first < second ∨ second + third ≤ first))
  | [] => .isTrue trivial
  | [_] => .isTrue trivial
  | [_, _] => .isTrue trivial

theorem longestZeros_pattern : ∀ b₁ b₂ b₃ b₄ b₅ b₆ b₇ : Bool,
    let zeros := [b₁, b₂, b₃, b₄, b₅, b₆, b₇]
    let found := longestZeros zeros
    1 ≤ found.1 ∧ found.1 + found.2 ≤ 8 ∧
      (((zeros.drop (found.1 - 1)).take found.2).all id = true ↔ apart (runLengths 0 zeros)) := by
  decide +kernel

theorem InAddr.exists_words (a : InAddr) :
    ∃ w₀ w₁ w₂ w₃ w₄ w₅ w₆ w₇, a.words = [w₀, w₁, w₂, w₃, w₄, w₅, w₆, w₇] := by
  have length := a.length_eq
  match same : a.words with
  | [w₀, w₁, w₂, w₃, w₄, w₅, w₆, w₇] => exact ⟨w₀, w₁, w₂, w₃, w₄, w₅, w₆, w₇, rfl⟩
  | [] | [_] | [_, _] | [_, _, _] | [_, _, _, _] | [_, _, _, _, _] | [_, _, _, _, _, _] | [_, _, _, _, _, _, _]
  | _ :: _ :: _ :: _ :: _ :: _ :: _ :: _ :: _ :: _ => simp [same] at length

theorem longestZeros_spec (a : InAddr) {start zeros : Nat}
    (found : longestZeros (a.words.tail.map fun w => decide (w = 0)) = (start, zeros)) :
    1 ≤ start ∧ start + zeros ≤ 8 ∧ ((∀ w ∈ (a.words.drop start).take zeros, w = 0) ↔ apart a.zeroRuns) := by
  obtain ⟨w₀, w₁, w₂, w₃, w₄, w₅, w₆, w₇, shape⟩ := a.exists_words
  have pattern := longestZeros_pattern (decide (w₁ = 0)) (decide (w₂ = 0)) (decide (w₃ = 0)) (decide (w₄ = 0))
    (decide (w₅ = 0)) (decide (w₆ = 0)) (decide (w₇ = 0))
  have tail : a.words.tail.map (fun w => decide (w = 0)) = [decide (w₁ = 0), decide (w₂ = 0), decide (w₃ = 0),
      decide (w₄ = 0), decide (w₅ = 0), decide (w₆ = 0), decide (w₇ = 0)] := by
    rw [shape]
    rfl
  simp only [← tail, found] at pattern
  obtain ⟨first, within, zero_run⟩ := pattern
  refine ⟨first, within, ?_⟩
  have moved : a.words.tail.drop (start - 1) = a.words.drop start := by
    rw [← List.drop_one, List.drop_drop]
    congr 1
    omega
  rw [InAddr.zeroRuns, ← zero_run, ← List.map_drop, ← List.map_take, moved, List.all_map, List.all_eq_true]
  simp only [Function.comp_apply, id, decide_eq_true_iff]

theorem apart_of_isIpv4 {a : InAddr} (v4 : a.isIpv4 = true) : apart a.zeroRuns := by
  obtain ⟨w₀, w₁, w₂, w₃, w₄, w₅, w₆, w₇, shape⟩ := a.exists_words
  have few : ∀ b₅ b₆ b₇ : Bool, apart (runLengths 0 [true, true, true, true, b₅, b₆, b₇]) := by decide
  simp only [InAddr.isIpv4, InAddr.word, shape, Bool.and_eq_true, decide_eq_true_eq] at v4
  obtain ⟨⟨⟨⟨⟨_, zero₁⟩, zero₂⟩, zero₃⟩, zero₄⟩, _⟩ := v4
  have zeros : a.words.tail.map (fun w => decide (w = 0)) =
      [true, true, true, true, decide (w₅ = 0), decide (w₆ = 0), decide (w₇ = 0)] := by
    simp only [shape, List.tail_cons, List.map_cons, List.map_nil]
    simp at zero₁ zero₂ zero₃ zero₄
    simp [zero₁, zero₂, zero₃, zero₄]
  rw [InAddr.zeroRuns, zeros]
  exact few _ _ _

theorem withZeros_eq_iff (a : InAddr) {start zeros : Nat} (within : start + zeros ≤ 8)
    (fits : (a.words.take start).length + (a.words.drop (start + zeros)).length ≤ 8) :
    withZeros (a.words.take start) (a.words.drop (start + zeros)) fits = a ↔
      ∀ w ∈ (a.words.drop start).take zeros, w = 0 := by
  have split : a.words = a.words.take start ++ (a.words.drop start).take zeros ++ a.words.drop (start + zeros) := by
    rw [List.append_assoc, ← List.drop_drop, List.take_append_drop, List.take_append_drop]
  have length : ((a.words.drop start).take zeros).length = zeros := by
    rw [List.length_take, List.length_drop, a.length_eq]
    omega
  have left : 8 - ((a.words.take start).length + (a.words.drop (start + zeros)).length) = zeros := by
    rw [List.length_take, List.length_drop, a.length_eq]
    omega
  have unfolded : (withZeros (a.words.take start) (a.words.drop (start + zeros)) fits).words =
      a.words.take start ++ List.replicate zeros 0 ++ a.words.drop (start + zeros) := by
    rw [withZeros]
    simp only [left]
  constructor
  · intro same
    rw [same] at unfolded
    have run := (List.append_cancel_left (List.append_cancel_right (split.symm.trans unfolded)))
    rw [run]
    exact fun w mem => List.eq_of_mem_replicate mem
  · intro all_zero
    apply InAddr.ext_words
    have run : (a.words.drop start).take zeros = List.replicate zeros 0 := List.eq_replicate_iff.mpr ⟨length, all_zero⟩
    rw [unfolded, ← run, ← split]

/-- The text reads back as the address: `ipmask_parse` uses all of it, reports 128 bits and
yields the address, an IPv4 address in its mapped form. -/
def ReadsBack (a : InAddr) : Prop :=
  ∃ mask, ipmaskParse true (ircdNtoaR a) = some mask ∧ mask.used (ircdNtoaR a) = (ircdNtoaR a).length ∧
    mask.pbits = some 128 ∧ mask.ip = a.canonical

theorem readsBack_of_parse {a result : InAddr} (parsed : ipmaskParse true (ircdNtoaR a) = some ⟨result, some 128, []⟩) :
    ReadsBack a ↔ result = a.canonical := by
  constructor
  · rintro ⟨mask, same, _, _, ip⟩
    rw [parsed] at same
    cases same
    exact ip
  · intro ip
    exact ⟨_, parsed, rfl, rfl, ip⟩

theorem readsBack_iff (a : InAddr) : ReadsBack a ↔ apart a.zeroRuns := by
  by_cases v4 : a.isIpv4 = true
  · rw [readsBack_of_parse (parse_ipv4 v4)]
    exact ⟨fun _ => apart_of_isIpv4 v4, fun _ => rfl⟩
  · have canonical : a.canonical = a := by rw [InAddr.canonical, if_neg v4]
    cases found : longestZeros (a.words.tail.map fun w => decide (w = 0)) with
    | mk start zeros =>
      obtain ⟨first, within, run⟩ := longestZeros_spec a found
      have text : ircdNtoaR a = printWords a start zeros 8 0 := by rw [ircdNtoaR, if_neg v4, found]
      by_cases none : zeros = 0
      · rw [printWords_after a 8 0 (by decide) (.inl none), List.drop_zero] at text
        rw [readsBack_of_parse (text ▸ parse_joined), canonical, ← run, none]
        simp
      · have some_zeros : 0 < zeros := Nat.pos_of_ne_zero none
        rw [printWords_before a some_zeros within 8 0 (by decide) (Nat.zero_le _), List.drop_zero, Nat.sub_zero] at text
        have length : (a.words.take start).length + (a.words.drop (start + zeros)).length < 8 := by
          rw [List.length_take, List.length_drop, a.length_eq]
          omega
        obtain ⟨pre, w, shape⟩ : ∃ pre w, a.words.take start = pre ++ [w] := by
          rcases List.eq_nil_or_concat' (a.words.take start) with empty | concat
          · have count := congrArg List.length empty
            rw [List.length_take, a.length_eq, List.length_nil] at count
            omega
          · exact concat
        have parsed : ipmaskParse true (ircdNtoaR a) =
            some ⟨withZeros (a.words.take start) (a.words.drop (start + zeros)) (Nat.le_of_lt length), some 128, []⟩ := by
          rw [text]
          simp only [shape] at length ⊢
          exact parse_dropped pre w _ length
        rw [readsBack_of_parse parsed, canonical, withZeros_eq_iff a within, run]

/-- `1:0:1:0:2:0:3:4`, which is printed as `1:0:1:0::3:4`. -/
def brokenAddr : InAddr := ⟨[1, 0, 1, 0, 2, 0, 3, 4], rfl⟩

theorem broken_not_readsBack : ¬ ReadsBack brokenAddr := by
  have parsed : ipmaskParse true (ircdNtoaR brokenAddr) = some ⟨⟨[1, 0, 1, 0, 0, 0, 3, 4], rfl⟩, some 128, []⟩ := by
    decide
  rw [readsBack_of_parse parsed]
  decide

end Ircd.Net
