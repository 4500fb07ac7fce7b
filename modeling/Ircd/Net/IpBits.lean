import Ircd.Net.IpText
import Ircd.Text.Numbers
import Mathlib.Data.List.TakeWhile

/-! The number of bits behind the slash of a mask.

Both parsers read it into an unsigned number and look at its value afterwards.
-/

set_option autoImplicit false

namespace Ircd.Net
open Ircd.Text

theorem readBits_fst (value : Nat) (suffix : List Char) :
    (readBits (value % 2 ^ 32) suffix).1 = readNumber value suffix % 2 ^ 32 := by
  induction suffix generalizing value with
  | nil => rfl
  | cons c rest ih =>
    rw [readBits, readNumber]
    split
    · have next : (value % 2 ^ 32 * 10 + digitValue c) % 2 ^ 32 = (value * 10 + (c.toNat - '0'.toNat)) % 2 ^ 32 := by
        rw [digitValue]
        omega
      rw [next]
      exact ih _
    · rfl

/-- A text whose first slash is in front of `suffix`. -/
def SlashAt (suffix pre text : List Char) : Prop := text = pre ++ '/' :: suffix ∧ '/' ∉ pre

variable {suffix pre : List Char}

theorem SlashAt.tail {rest : List Char} {c : Char} (slash : SlashAt suffix pre (c :: rest)) (other : c ≠ '/') :
    ∃ pre', pre = c :: pre' ∧ SlashAt suffix pre' rest := by
  obtain ⟨split, no_slash⟩ := slash
  cases pre with
  | nil => exact absurd (List.cons_eq_cons.mp split).1 other
  | cons d pre =>
    obtain ⟨rfl, rest_eq⟩ := List.cons_eq_cons.mp split
    exact ⟨pre, rfl, rest_eq, fun mem => no_slash (List.mem_cons_of_mem _ mem)⟩

theorem SlashAt.here {rest : List Char} (slash : SlashAt suffix pre ('/' :: rest)) : pre = [] ∧ rest = suffix := by
  obtain ⟨split, no_slash⟩ := slash
  cases pre with
  | nil => exact ⟨rfl, (List.cons_eq_cons.mp split).2⟩
  | cons d pre => exact absurd (by rw [(List.cons_eq_cons.mp split).1]; exact List.mem_cons_self) no_slash

theorem SlashAt.mem {text : List Char} (slash : SlashAt suffix pre text) : '/' ∈ text := by
  rw [slash.1]
  simp

theorem SlashAt.ne_nil (slash : SlashAt suffix pre []) : False := by
  cases slash.mem

theorem SlashAt.dropWhile {text : List Char} (slash : SlashAt suffix pre text) {p : Char → Bool}
    (stops : p '/' = false) : text.dropWhile p ≠ [] := by
  intro ended
  have all := List.dropWhile_eq_nil_iff.mp ended '/' slash.mem
  rw [stops] at all
  cases all

theorem atonIp4Loop_bits {text : List Char} (slash : SlashAt suffix pre text) {dots part ip : Nat} {v4 : Ip4}
    (read : atonIp4Loop true text dots part ip = some v4) :
    v4.bits = (readBits 0 suffix).1 ∧ v4.bits ≤ 32 := by
  induction text generalizing pre dots part ip with
  | nil => exact slash.ne_nil.elim
  | cons c rest ih =>
    rw [atonIp4Loop] at read
    by_cases dot : c = '.'
    · obtain ⟨pre', -, slash⟩ := slash.tail (by rw [dot]; decide)
      rw [if_pos dot] at read
      split at read
      · cases read
      · split at read
        · rw [if_pos (slash.dropWhile (by decide))] at read
          cases read
        · exact ih slash read
    · rw [if_neg dot] at read
      by_cases is_slash : c = '/'
      · subst is_slash
        obtain ⟨-, rfl⟩ := slash.here
        rw [if_pos rfl] at read
        split at read
        · cases read
        · dsimp only at read
          split at read
          · cases read
          · rename_i small
            obtain rfl := Option.some.inj read
            exact ⟨rfl, Nat.le_of_not_lt small⟩
      · obtain ⟨pre', -, slash⟩ := slash.tail is_slash
        rw [if_neg is_slash] at read
        split at read
        · split at read
          · cases read
          · exact ih slash read
        · cases read

theorem ircdAtonIp4_bits {text : List Char} (slash : SlashAt suffix pre text) {v4 : Ip4}
    (read : ircdAtonIp4 true text = some v4) : v4.bits = (readBits 0 suffix).1 ∧ v4.bits ≤ 32 := by
  rw [ircdAtonIp4] at read
  split at read
  · cases read
  · exact atonIp4Loop_bits slash read

def PartKept (suffix pre partStart : List Char) : Prop :=
  '.' ∈ pre → (∃ p, SlashAt suffix p partStart) ∨ ∃ a b, pre = a ++ ':' :: b ∧ '.' ∉ a

theorem PartKept.of_slash {p partStart : List Char} (slash : SlashAt suffix p partStart) :
    PartKept suffix pre partStart := fun _ => .inl ⟨p, slash⟩

theorem PartKept.tail {partStart : List Char} {c : Char} (kept : PartKept suffix (c :: pre) partStart)
    (other : c ≠ ':') : PartKept suffix pre partStart := by
  intro dot
  refine (kept (List.mem_cons_of_mem c dot)).imp_right ?_
  rintro ⟨a, b, split, no_dot⟩
  cases a with
  | nil => exact absurd (List.cons_eq_cons.mp split).1 other
  | cons d a => exact ⟨a, b, (List.cons_eq_cons.mp split).2, fun mem => no_dot (List.mem_cons_of_mem d mem)⟩

theorem PartKept.dot {partStart : List Char} (kept : PartKept suffix ('.' :: pre) partStart) :
    ∃ p, SlashAt suffix p partStart := by
  refine (kept List.mem_cons_self).resolve_right ?_
  rintro ⟨a, b, split, no_dot⟩
  cases a with
  | nil => exact absurd (List.cons_eq_cons.mp split).1 (by decide)
  | cons d a => exact no_dot (by rw [← (List.cons_eq_cons.mp split).1]; exact List.mem_cons_self)

/-- The bits of a mask with the text `pre` in front of its slash. -/
def BitsRead (suffix pre : List Char) (m : IpMask) : Prop :=
  (readBits 0 suffix).1 ≤ (if '.' ∈ pre then 32 else 128) ∧
    m.pbits = some ((readBits 0 suffix).1 + if '.' ∈ pre then 96 else 0)

theorem BitsRead.cons {m : IpMask} (read : BitsRead suffix pre m) {c : Char} (other : c ≠ '.') :
    BitsRead suffix (c :: pre) m := by
  have same : '.' ∈ c :: pre ↔ '.' ∈ pre := by simp [Ne.symm other]
  unfold BitsRead
  simp only [same]
  exact read

theorem ip6Loop_bits {text : List Char} (slash : SlashAt suffix pre text) {s : Ip6} {m : IpMask}
    (kept : PartKept suffix pre s.partStart) (read : ip6Loop true text s = some m) : BitsRead suffix pre m := by
  fun_induction ip6Loop true text s generalizing pre
  case case1 | case2 | case3 => exact slash.ne_nil.elim
  case case4 | case6 | case7 | case9 | case11 | case12 | case14 | case15 | case17 | case19 | case20 => cases read
  case case5 after s room no_error ih =>
    obtain ⟨pre', rfl, first⟩ := slash.tail (by decide)
    obtain ⟨pre'', rfl, second⟩ := first.tail (by decide)
    exact ((ih second (.of_slash first) read).cons (by decide)).cons (by decide)
  case case8 c rest s not_pair room chval hex small ih =>
    have no_hex {d : Char} (none_d : hexValue d = none) : c ≠ d := by
      rintro rfl
      rw [hex] at none_d
      cases none_d
    obtain ⟨pre', rfl, next⟩ := slash.tail (no_hex (by decide))
    exact (ih next (kept.tail (no_hex (by decide))) read).cons (no_hex (by decide))
  case case10 rest s room no_dot not_pair hex ih =>
    obtain ⟨pre', rfl, next⟩ := slash.tail (by decide)
    exact (ih next (.of_slash next) read).cons (by decide)
  case case13 rest s room v4 parsed short high low not_pair hex _ =>
    obtain ⟨pre', rfl, slash⟩ := slash.tail (by decide)
    obtain ⟨p, part⟩ := kept.dot
    obtain ⟨bits, small⟩ := ircdAtonIp4_bits part parsed
    obtain rfl := Option.some.inj read
    rw [BitsRead, if_pos List.mem_cons_self, if_pos List.mem_cons_self, ← bits]
    exact ⟨small, rfl⟩
  case case16 rest s room digit bits rest' read_bits small not_pair hex _ _ =>
    obtain ⟨rfl, rfl⟩ := slash.here
    obtain rfl := Option.some.inj read
    rw [BitsRead, read_bits]
    exact ⟨Nat.le_of_not_lt small, rfl⟩
  case case18 rest s room ends stored not_pair hex _ _ _ =>
    obtain ⟨pre', -, next⟩ := slash.tail (by decide)
    exact absurd (not_not.mp (not_or.mp ends).1) (next.dropWhile (by decide))

/-- Whether the number of bits counts from the start of an IPv4 address: a dotted mask, alone or behind colons. -/
def readsIp4 (input pre : List Char) : Bool := !colonFirst input || '.' ∈ pre

theorem colonFirst_cons (c : Char) (input : List Char) :
    colonFirst (c :: input) = (decide (c = ':') || decide (c ≠ '.') && colonFirst input) := by
  unfold colonFirst
  by_cases colon : c = ':'
  · subst colon
    cases dot : List.idxOf? '.' input <;> simp [List.idxOf?_cons, dot]
  · by_cases dot : c = '.'
    · subst dot
      cases later : List.idxOf? ':' input <;> simp [List.idxOf?_cons, later]
    · cases colon_later : List.idxOf? ':' input <;> cases dot_later : List.idxOf? '.' input <;>
        simp [List.idxOf?_cons, colon, dot, colon_later, dot_later]

theorem colonFirst_kept {input : List Char} (slash : SlashAt suffix pre input) (colon : colonFirst input = true) :
    PartKept suffix pre [] := by
  induction pre generalizing input with
  | nil => exact fun dot => absurd dot List.not_mem_nil
  | cons c pre ih =>
    refine fun dot => .inr ?_
    obtain ⟨split, no_slash⟩ := slash
    rw [List.cons_append] at split
    by_cases here : c = ':'
    · exact ⟨[], pre, by rw [here]; rfl, List.not_mem_nil⟩
    · rw [split, colonFirst_cons, decide_eq_false here, Bool.false_or, Bool.and_eq_true, decide_eq_true_iff] at colon
      have later : '.' ∈ pre := (List.mem_cons.mp dot).resolve_left (Ne.symm colon.1)
      obtain ⟨p, at_nil⟩ | ⟨a, b, rest, no_dot⟩ := ih ⟨rfl, fun mem => no_slash (List.mem_cons_of_mem c mem)⟩ colon.2 later
      · exact at_nil.ne_nil.elim
      · refine ⟨c :: a, b, by rw [rest]; rfl, ?_⟩
        exact fun mem => (List.mem_cons.mp mem).elim (Ne.symm colon.1) no_dot

theorem parseIp6_bits {input : List Char} {m : IpMask} (slash : SlashAt suffix pre input)
    (colon : colonFirst input = true) (accepted : parseIp6 true input = some m) : BitsRead suffix pre m := by
  unfold parseIp6 at accepted
  split at accepted
  · rename_i rest
    split at accepted
    · rename_i after
      split at accepted
      · cases accepted
      · obtain ⟨pre', rfl, first⟩ := slash.tail (by decide)
        obtain ⟨pre'', rfl, second⟩ := first.tail (by decide)
        exact ((ip6Loop_bits second (.of_slash second) accepted).cons (by decide)).cons (by decide)
    · cases accepted
  · exact ip6Loop_bits slash (colonFirst_kept slash colon) accepted

theorem parseIp4_bits {input : List Char} {m : IpMask} (slash : SlashAt suffix pre input)
    (accepted : parseIp4 true input = some m) :
    (readBits 0 suffix).1 ≤ 32 ∧ m.pbits = some ((readBits 0 suffix).1 + 96) := by
  rw [parseIp4] at accepted
  split at accepted
  · cases accepted
  · rename_i v4 read
    obtain ⟨bits, small⟩ := ircdAtonIp4_bits slash read
    obtain rfl := Option.some.inj accepted
    rw [← bits]
    exact ⟨small, rfl⟩

theorem ipmaskParse_bits {input : List Char} {m : IpMask} (slash : SlashAt suffix pre input)
    (accepted : ipmaskParse true input = some m) :
    (readBits 0 suffix).1 ≤ (if readsIp4 input pre then 32 else 128) ∧
      m.pbits = some ((readBits 0 suffix).1 + if readsIp4 input pre then 96 else 0) := by
  rw [ipmaskParse] at accepted
  unfold readsIp4
  cases colon : colonFirst input with
  | true =>
    rw [if_pos colon] at accepted
    have bits := parseIp6_bits slash colon accepted
    simpa [BitsRead] using bits
  | false =>
    rw [if_neg (by rw [colon]; exact Bool.false_ne_true), if_pos (.inr slash.mem)] at accepted
    exact parseIp4_bits slash accepted

/-- The bits of an accepted mask are those that its suffix asks for exactly where the number fits 32 bits. -/
theorem ipmaskParse_bits_iff {input : CString} {suffix pre : List Char} {m : IpMask}
    (text : input.chars = pre ++ '/' :: suffix) (no_slash : '/' ∉ pre) (accepted : ipmaskParse true input.chars = some m) :
    readNumber 0 suffix ≤ (if readsIp4 input.chars pre then 32 else 128) ∧
        m.pbits = some (readNumber 0 suffix + if readsIp4 input.chars pre then 96 else 0) ↔
      readNumber 0 suffix < 2 ^ 32 := by
  obtain ⟨inside, bits⟩ := ipmaskParse_bits ⟨text, no_slash⟩ accepted
  have kept := readBits_fst 0 suffix
  rw [Nat.zero_mod] at kept
  rw [kept] at inside bits
  constructor
  · rintro ⟨small, -⟩
    split at small <;> omega
  · intro fits
    rw [Nat.mod_eq_of_lt fits] at inside bits
    exact ⟨inside, bits⟩

def slash24 : CString := ⟨['1', '0', '.', '1', '.', '2', '.', '0', '/', '2', '4'], by decide, by decide⟩

def slash24Mask : IpMask := ⟨.mapped 0x0a01 0x0200, some 120, []⟩

theorem slash24_accepted : ipmaskParse true slash24.chars = some slash24Mask := by decide +kernel

theorem slash24_bits : readNumber 0 ['2', '4'] ≤ 32 ∧ slash24Mask.pbits = some (readNumber 0 ['2', '4'] + 96) :=
  (@ipmaskParse_bits_iff slash24 ['2', '4'] ['1', '0', '.', '1', '.', '2', '.', '0'] slash24Mask rfl (by decide)
    slash24_accepted).mpr (by decide)

def slashWrapped : CString :=
  ⟨['1', '0', '.', '1', '.', '2', '.', '0', '/', '4', '2', '9', '4', '9', '6', '7', '2', '9', '6'], by decide, by decide⟩

def slashWrappedMask : IpMask := ⟨.mapped 0x0a01 0x0200, some 96, []⟩

theorem slashWrapped_accepted : ipmaskParse true slashWrapped.chars = some slashWrappedMask := by decide +kernel

theorem slashWrapped_bits : ¬ ∀ m, ipmaskParse true slashWrapped.chars = some m →
    readNumber 0 ['4', '2', '9', '4', '9', '6', '7', '2', '9', '6'] ≤ 32 ∧
      m.pbits = some (readNumber 0 ['4', '2', '9', '4', '9', '6', '7', '2', '9', '6'] + 96) := by
  intro small
  exact absurd (small _ slashWrapped_accepted).1 (by decide)

end Ircd.Net
