import Ircd.Net.IpRoundTrip

/-! The characters of the text of an address, and how many there are at most. -/

set_option autoImplicit false

namespace Ircd.Net
open Ircd.Text

def isIpChar (c : Char) : Bool := isDigit c || 'a' ≤ c && c ≤ 'f' || c = '.' || c = ':'

/-- A text with at most `room` characters, all of them of addresses. -/
def IpChars (room : Nat) (text : List Char) : Prop := text.length ≤ room ∧ ∀ c ∈ text, isIpChar c = true

theorem isIpChar_byte {c : Char} (ip_char : isIpChar c = true) : c.toNat < 256 := by
  simp only [isIpChar, isDigit, Bool.or_eq_true, Bool.and_eq_true, decide_eq_true_eq] at ip_char
  rcases ip_char with ((digit | letter) | rfl) | rfl
  · exact Nat.lt_of_le_of_lt (UInt32.le_iff_toNat_le.mp digit.2) (by decide)
  · exact Nat.lt_of_le_of_lt (UInt32.le_iff_toNat_le.mp letter.2) (by decide)
  · decide
  · decide

theorem IpChars.bytes {n : Nat} {s : List Char} (text : IpChars n s) : ∀ c ∈ s, c.toNat < 256 :=
  fun c mem => isIpChar_byte (text.2 c mem)

theorem IpChars.mono {m n : Nat} {s : List Char} (text : IpChars m s) (room : m ≤ n) : IpChars n s :=
  text.imp_left fun fits => fits.trans room

theorem IpChars.append {m n : Nat} {s t : List Char} (front : IpChars m s) (back : IpChars n t) : IpChars (m + n) (s ++ t) := by
  refine ⟨?_, fun c mem => ?_⟩
  · rw [List.length_append]
    exact Nat.add_le_add front.1 back.1
  · exact (List.mem_append.mp mem).elim (front.2 c) (back.2 c)

theorem IpChars.cons {n : Nat} {c : Char} {t : List Char} (first : isIpChar c = true) (back : IpChars n t) :
    IpChars (n + 1) (c :: t) :=
  ⟨Nat.succ_le_succ back.1, List.forall_mem_cons.mpr ⟨first, back.2⟩⟩

theorem ipQuad_chars : ∀ n : Fin 256, (ipQuad n).length ≤ 3 ∧ (ipQuad n).all isIpChar = true := by decide +kernel

theorem IpChars.ipQuad {n : Nat} (small : n < 256) : IpChars 3 (ipQuad n) :=
  (ipQuad_chars ⟨n, small⟩).imp_right List.all_eq_true.mp

theorem isIpChar_hexDigit : ∀ d : Fin 16, isIpChar (hexDigit d) = true := by decide

theorem IpChars.hexDigit {n : Nat} (small : n < 16) : IpChars 1 [hexDigit n] :=
  .cons (isIpChar_hexDigit ⟨n, small⟩) ⟨Nat.le_refl 0, by simp⟩

theorem IpChars.none (room : Nat) : IpChars room [] := ⟨Nat.zero_le room, by simp⟩

theorem IpChars.unless {room : Nat} {p : Prop} [Decidable p] {text : List Char} (printed : p → IpChars room text) :
    IpChars room (if p then text else []) := by
  by_cases holds : p
  · rw [if_pos holds]
    exact printed holds
  · rw [if_neg holds]
    exact .none room

theorem IpChars.hexWord {n : Nat} (small : n < 65536) : IpChars 4 (hexWord n) := by
  rw [hexWord_eq]
  have digit {d : Nat} (less : d < 16) : IpChars 1 [Net.hexDigit d] := .hexDigit less
  have first : IpChars 1 (if n ≥ 0x1000 then [Net.hexDigit (n / 4096)] else []) := .unless fun _ => digit (by omega)
  have second : IpChars 1 (if n ≥ 0x100 then [Net.hexDigit (n / 256 % 16)] else []) := .unless fun _ => digit (by omega)
  have third : IpChars 1 (if n ≥ 0x10 then [Net.hexDigit (n / 16 % 16)] else []) := .unless fun _ => digit (by omega)
  exact ((first.append second).append third).append (digit (by omega))

theorem IpChars.printWords (a : InAddr) (maxStart maxZeros rounds ii : Nat) :
    IpChars (5 * rounds) (printWords a maxStart maxZeros rounds ii) := by
  induction rounds generalizing ii with
  | zero => exact .none _
  | succ rounds ih =>
    rw [Net.printWords, Nat.mul_succ]
    by_cases inside : ii < 8
    · rw [if_pos inside]
      split
      · exact ⟨by have := (ih (ii + (maxZeros - 1) + 1)).1; rw [List.length_cons]; omega,
          List.forall_mem_cons.mpr ⟨by decide, (ih _).2⟩⟩
      · have colon : IpChars 1 (if ii < 7 then [':'] else []) := .unless fun _ => .cons (by decide) (.none 0)
        have word := IpChars.hexWord (a.word ii).toNat_lt
        rw [Nat.add_comm]
        exact (word.append colon).append (ih (ii + 1))
    · rw [if_neg inside]
      exact .none _

theorem ircdNtoaR_chars (a : InAddr) : IpChars 40 (ircdNtoaR a) := by
  rw [ircdNtoaR]
  by_cases v4 : a.isIpv4 = true
  · rw [if_pos v4]
    have high := (a.word 6).toNat_lt
    have low := (a.word 7).toNat_lt
    have first : IpChars 3 (Net.ipQuad ((a.word 6).toNat / 256)) := .ipQuad (by omega)
    have second : IpChars 4 ('.' :: Net.ipQuad ((a.word 6).toNat % 256)) := .cons (by decide) (.ipQuad (by omega))
    have third : IpChars 4 ('.' :: Net.ipQuad ((a.word 7).toNat / 256)) := .cons (by decide) (.ipQuad (by omega))
    have fourth : IpChars 4 ('.' :: Net.ipQuad ((a.word 7).toNat % 256)) := .cons (by decide) (.ipQuad (by omega))
    exact IpChars.mono (((first.append second).append third).append fourth) (by decide)
  · rw [if_neg v4]
    exact .printWords a _ _ 8 0

end Ircd.Net
