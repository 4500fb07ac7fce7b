import Ircd.Net.IpBits
import Ircd.Text.Numbers
import Ircd.Match.Mask

/-! How many bits `ipmask_parse` reads from a mask: those behind a slash, or those of the parts before the first
wildcard. -/

set_option autoImplicit false

namespace Ircd.Net
open Ircd.Text
open Ircd.Match (isWild not_isWild_iff)

def dotsBeforeWild (text : List Char) : Nat := (text.takeWhile fun c => !isWild c).count '.'

theorem dotsBeforeWild_wild {c : Char} (wild : isWild c = true) (rest : List Char) :
    dotsBeforeWild (c :: rest) = 0 := by
  rw [dotsBeforeWild, List.takeWhile_cons_of_neg (by simp [wild]), List.count_nil]

theorem dotsBeforeWild_dot (rest : List Char) : dotsBeforeWild ('.' :: rest) = dotsBeforeWild rest + 1 := by
  rw [dotsBeforeWild, List.takeWhile_cons_of_pos (by decide), List.count_cons_self, dotsBeforeWild]

theorem dotsBeforeWild_other {c : Char} (plain : isWild c = false) (other : c ≠ '.') (rest : List Char) :
    dotsBeforeWild (c :: rest) = dotsBeforeWild rest := by
  rw [dotsBeforeWild, List.takeWhile_cons_of_pos (by simp [plain]), List.count_cons_of_ne other, dotsBeforeWild]

variable {text : List Char}

theorem atonIp4Loop_parts (no_slash : '/' ∉ text) {dots part ip : Nat} {v4 : Ip4}
    (two : 2 ≤ dots + dotsBeforeWild text) (reads : atonIp4Loop true text dots part ip = some v4) :
    16 ≤ v4.bits := by
  induction text generalizing dots part ip with
  | nil =>
    rw [atonIp4Loop] at reads
    split at reads
    · cases reads
    · obtain rfl := Option.some.inj reads
      exact (by decide : 16 ≤ 32)
  | cons c rest ih =>
    have behind : '/' ∉ rest := fun mem => no_slash (List.mem_cons_of_mem c mem)
    have here : c ≠ '/' := fun same => no_slash (same ▸ List.mem_cons_self)
    rw [atonIp4Loop] at reads
    split at reads
    case isTrue dot =>
      subst dot
      rw [dotsBeforeWild_dot] at two
      split at reads
      · cases reads
      split at reads
      case isTrue star =>
        split at reads
        · cases reads
        · obtain rfl := Option.some.inj reads
          obtain ⟨tail, rfl⟩ : ∃ tail, rest = '*' :: tail := by
            cases rest with
            | nil => exact absurd star (by decide)
            | cons d tail => exact ⟨tail, by rw [← star]; rfl⟩
          rw [dotsBeforeWild_wild (by decide)] at two
          dsimp only
          omega
      case isFalse => exact ih behind (by omega) reads
    case isFalse other =>
      split at reads
      case isTrue digit =>
        split at reads
        · cases reads
        · have plain : isWild c = false := by
            refine not_isWild_iff.mpr ⟨?_, ?_⟩
            · rintro rfl
              exact absurd digit (by decide)
            · rintro rfl
              exact absurd digit (by decide)
          rw [dotsBeforeWild_other plain other] at two
          exact ih behind two reads
      case isFalse => cases reads

theorem ircdAtonIp4_parts (no_slash : '/' ∉ text) (two : 2 ≤ dotsBeforeWild text) {v4 : Ip4}
    (reads : ircdAtonIp4 true text = some v4) : 16 ≤ v4.bits := by
  rw [ircdAtonIp4] at reads
  split at reads
  · cases reads
  · exact atonIp4Loop_parts no_slash (by omega) reads

theorem hexValue_ne {c d : Char} {chval : Nat} (read : hexValue c = some chval) (none : hexValue d = none) :
    c ≠ d := by
  rintro rfl
  rw [none] at read
  cases read

structure Ip6.Behind (s : Ip6) (text : List Char) : Prop where
  dots : s.partStart = [] ∨ dotsBeforeWild s.partStart = dotsBeforeWild text
  no_slash : '/' ∉ s.partStart

theorem ip6Loop_parts {s : Ip6} (no_slash : '/' ∉ text) (two : 2 ≤ dotsBeforeWild text) (behind : s.Behind text)
    {mask : IpMask} (reads : ip6Loop true text s = some mask) :
    ∃ bits, mask.pbits = some bits ∧ 112 ≤ bits := by
  have plain {c : Char} {text : List Char} (here : '/' ∉ c :: text) : '/' ∉ text :=
    fun mem => here (List.mem_cons_of_mem c mem)
  have colon (rest : List Char) : dotsBeforeWild (':' :: rest) = dotsBeforeWild rest :=
    dotsBeforeWild_other (by decide) (by decide) rest
  fun_induction ip6Loop true text s with
  | case1 | case2 | case3 => exact absurd two (by decide)
  | case4 | case6 | case7 | case9 | case11 | case12 | case14 | case15 | case17 | case19 | case20 => cases reads
  | case5 after s _ _ ih =>
    rw [colon, colon] at two
    exact ih (plain (plain no_slash)) two ⟨.inr (colon after), plain no_slash⟩ reads
  | case8 c rest s _ _ chval read _ ih =>
    have digit : isWild c = false := not_isWild_iff.mpr ⟨hexValue_ne read rfl, hexValue_ne read rfl⟩
    have same := dotsBeforeWild_other digit (hexValue_ne read rfl) rest
    rw [same] at two
    exact ih (plain no_slash) two ⟨behind.dots.imp_right (·.trans same), behind.no_slash⟩ reads
  | case10 rest s _ _ _ _ ih =>
    rw [colon] at two
    exact ih (plain no_slash) two ⟨.inr rfl, plain no_slash⟩ reads
  | case13 rest s _ v4 found =>
    obtain rfl := Option.some.inj reads
    rcases behind.dots with none | same
    · rw [none] at found
      cases found
    · have bits := ircdAtonIp4_parts behind.no_slash (by omega) found
      exact ⟨v4.bits + 96, rfl, by omega⟩
  | case16 => exact absurd List.mem_cons_self no_slash
  | case18 =>
    rw [dotsBeforeWild_wild (by decide)] at two
    exact absurd two (by decide)

def behindSlash (text : List Char) : List Char := (text.dropWhile (· ≠ '/')).tail

theorem behindSlash_slash (rest : List Char) : behindSlash ('/' :: rest) = rest := by
  rw [behindSlash, List.dropWhile_cons_of_neg (by decide), List.tail_cons]

theorem behindSlash_other {c : Char} (other : c ≠ '/') (rest : List Char) :
    behindSlash (c :: rest) = behindSlash rest := by
  rw [behindSlash, List.dropWhile_cons_of_pos (by simpa using other), behindSlash]

theorem atonIp4Loop_slash (slash : '/' ∈ text) (no_dot : '.' ∉ text) {dots part ip : Nat} {v4 : Ip4}
    (reads : atonIp4Loop true text dots part ip = some v4) :
    (v4.bits, v4.rest) = readBits 0 (behindSlash text) := by
  induction text generalizing part with
  | nil => cases slash
  | cons c rest ih =>
    have here : c ≠ '.' := fun same => no_dot (same ▸ List.mem_cons_self)
    rw [atonIp4Loop, if_neg here] at reads
    split at reads
    case isTrue first =>
      subst first
      rw [behindSlash_slash]
      split at reads
      · cases reads
      · generalize readBits 0 rest = read at reads ⊢
        dsimp only at reads
        split at reads
        · cases reads
        · obtain rfl := Option.some.inj reads
          rfl
    case isFalse other =>
      rw [behindSlash_other other]
      have behind : '/' ∈ rest := (List.mem_cons.mp slash).resolve_left (Ne.symm other)
      split at reads
      · split at reads
        · cases reads
        · exact ih behind (fun mem => no_dot (List.mem_cons_of_mem c mem)) reads
      · cases reads

theorem ip6Loop_slash {s : Ip6} (slash : '/' ∈ text) (no_dot : '.' ∉ text) (no_star : '*' ∉ text) {mask : IpMask}
    (reads : ip6Loop true text s = some mask) :
    ∃ bits, mask.pbits = some bits ∧ (bits, mask.rest) = readBits 0 (behindSlash text) := by
  have behind {c : Char} {text : List Char} (slash : '/' ∈ c :: text) (other : c ≠ '/') : '/' ∈ text :=
    (List.mem_cons.mp slash).resolve_left (Ne.symm other)
  have without {c d : Char} {text : List Char} (none : d ∉ c :: text) : d ∉ text :=
    fun mem => none (List.mem_cons_of_mem c mem)
  have colon (rest : List Char) : behindSlash (':' :: rest) = behindSlash rest :=
    behindSlash_other (by decide) rest
  fun_induction ip6Loop true text s with
  | case1 | case2 | case3 => cases slash
  | case4 | case6 | case7 | case9 | case11 | case12 | case14 | case15 | case17 | case19 | case20 => cases reads
  | case5 after s _ _ ih =>
    rw [colon, colon]
    exact ih (behind (behind slash (by decide)) (by decide)) (without (without no_dot))
      (without (without no_star)) reads
  | case8 c rest s _ _ chval read _ ih =>
    have other : c ≠ '/' := hexValue_ne read rfl
    rw [behindSlash_other other]
    exact ih (behind slash other) (without no_dot) (without no_star) reads
  | case10 rest s _ _ _ _ ih =>
    rw [colon]
    exact ih (behind slash (by decide)) (without no_dot) (without no_star) reads
  | case13 => exact absurd List.mem_cons_self no_dot
  | case16 rest s _ _ bits left found =>
    obtain rfl := Option.some.inj reads
    exact ⟨bits, rfl, by rw [behindSlash_slash, found]⟩
  | case18 => exact absurd List.mem_cons_self no_star

def enoughBits (text : List Char) : Nat := if colonFirst text then 16 else 112

theorem parseIp6_reads {input : List Char} {mask : IpMask} (reads : parseIp6 true input = some mask) :
    ip6Loop true input ⟨0, 0, 8, [], zeroAddr⟩ = some mask ∨
      ∃ text, input = ':' :: ':' :: text ∧ ip6Loop true text ⟨0, 0, 0, text, zeroAddr⟩ = some mask := by
  unfold parseIp6 at reads
  split at reads
  · split at reads
    · split at reads
      · cases reads
      · exact .inr ⟨_, rfl, reads⟩
    · cases reads
  · exact .inl reads

theorem parseIp4_reads {input : List Char} {mask : IpMask} (reads : parseIp4 true input = some mask) :
    ∃ v4, ircdAtonIp4 true input = some v4 ∧ mask.pbits = some (v4.bits + 96) ∧ mask.rest = v4.rest := by
  unfold parseIp4 at reads
  split at reads
  · cases reads
  next v4 found =>
    obtain rfl := Option.some.inj reads
    exact ⟨v4, found, rfl, rfl⟩

/-- A mask without a slash and with two parts before a wildcard is wide enough if it is read. -/
theorem ipmaskParse_parts (no_slash : '/' ∉ text) (two : 2 ≤ dotsBeforeWild text) {mask : IpMask}
    (reads : ipmaskParse true text = some mask) :
    ∃ bits, mask.pbits = some bits ∧ enoughBits text ≤ bits := by
  unfold ipmaskParse at reads
  unfold enoughBits
  split at reads
  case isTrue v6 =>
    rw [if_pos v6]
    have wide : ∃ bits, mask.pbits = some bits ∧ 112 ≤ bits := by
      rcases parseIp6_reads reads with whole | ⟨behind, rfl, rest⟩
      · exact ip6Loop_parts no_slash two ⟨.inl rfl, List.not_mem_nil⟩ whole
      · have without : '/' ∉ behind := fun mem => no_slash (List.mem_cons_of_mem _ (List.mem_cons_of_mem _ mem))
        rw [dotsBeforeWild_other (by decide) (by decide), dotsBeforeWild_other (by decide) (by decide)] at two
        exact ip6Loop_parts without two ⟨.inr rfl, without⟩ rest
    obtain ⟨bits, read, enough⟩ := wide
    exact ⟨bits, read, by omega⟩
  case isFalse v4 =>
    rw [if_neg v4]
    split at reads
    · obtain ⟨v4, found, bits, -⟩ := parseIp4_reads reads
      have enough := ircdAtonIp4_parts no_slash two found
      exact ⟨_, bits, by omega⟩
    next neither =>
      have dot : '.' ∈ text := by
        have counted : 0 < (text.takeWhile fun c => !isWild c).count '.' := by
          rw [← dotsBeforeWild]
          omega
        exact (List.takeWhile_sublist _).subset (List.count_pos_iff.mp counted)
      exact absurd (.inl dot) neither

theorem ipmaskParse_slash (slash : '/' ∈ text) (no_dot : '.' ∉ text) (no_star : '*' ∉ text) {mask : IpMask}
    (reads : ipmaskParse true text = some mask) :
    ∃ bits, mask.pbits = some (bits + (enoughBits text - 16)) ∧
      (bits, mask.rest) = readBits 0 (behindSlash text) := by
  unfold ipmaskParse at reads
  unfold enoughBits
  split at reads
  case isTrue v6 =>
    rw [if_pos v6]
    rcases parseIp6_reads reads with whole | ⟨behind, rfl, rest⟩
    · exact ip6Loop_slash slash no_dot no_star whole
    · have without {c : Char} (none : c ∉ ':' :: ':' :: behind) : c ∉ behind :=
        fun mem => none (List.mem_cons_of_mem _ (List.mem_cons_of_mem _ mem))
      rw [behindSlash_other (by decide), behindSlash_other (by decide)]
      exact ip6Loop_slash (by simpa using slash) (without no_dot) (without no_star) rest
  case isFalse v4 =>
    rw [if_neg v4]
    split at reads
    · obtain ⟨v4, found, bits, rest⟩ := parseIp4_reads reads
      rw [ircdAtonIp4] at found
      split at found
      · cases found
      · exact ⟨v4.bits, bits, by rw [rest]; exact atonIp4Loop_slash slash no_dot found⟩
    next neither => exact absurd (.inr slash) neither

end Ircd.Net
