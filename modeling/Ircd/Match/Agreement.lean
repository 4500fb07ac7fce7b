import Ircd.Match.CompiledLanguage
import Ircd.Match.PlainEscapes

/-! The compiled path and the plain one. -/

set_option autoImplicit false

namespace Ircd.Match
open Ircd.Library.Glob Ircd.Text

theorem matchexec_language (attr : Char → BitVec 32) (before : Char) (mask name : CString) :
    matchexec before name.chars (matchcomp attr mask.chars).cmask (matchcomp attr mask.chars).minlen = some 0 ↔
      InGlob mask.chars name.chars := by
  obtain ⟨l, cmask, minlen, good, -, tokens⟩ := matchcomp_layout attr mask
  have language : InGlob mask.chars name.chars ↔ Matches toLower l.tokens name.chars := by
    rw [tokens, matches_normalize]
    rfl
  rw [cmask, minlen, language]
  have decided {r : Option Nat} {holds : Prop} : (∃ k, r = some k ∧ (k = 0 ↔ holds)) → (r = some 0 ↔ holds) := by
    rintro ⟨k, rfl, zero⟩
    rw [Option.some_inj, zero]
  cases l with
  | plain head => exact decided (matchexec_plain name.nul_free good _)
  | starred head chunks tail => exact decided (matchexec_starred good.1 good.2.1 good.2.2)

/-- The compiled path agrees with the plain one on every name just for the masks that the plain one decides. -/
theorem match_agrees_iff (attr : Char → BitVec 32) (before : Char) (mask : CString) :
    (∀ name : CString, ircMatch mask.chars name.chars = 0 ↔
      matchexec before name.chars (matchcomp attr mask.chars).cmask (matchcomp attr mask.chars).minlen = some 0) ↔
      escapeAfterWild false mask.chars = false := by
  constructor
  · intro agree
    by_contra ahead
    have compiled := (matchexec_language attr before mask (shortestName mask)).mpr (matches_shortest filler)
    exact ircMatch_shortest mask.nul_free (by simpa using ahead) ((agree (shortestName mask)).mpr compiled)
  · intro calm name
    rw [matchexec_language]
    exact ircMatch_decides mask.nul_free name.nul_free calm

end Ircd.Match
