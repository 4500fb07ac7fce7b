import Ircd.Auth.Requests
import Ircd.Channels.BanChanges
import Ircd.Match.Plain

/-! Which ban of a list is on a client.

The nick and the user name are compared with the part of a mask before its last `@`; the part
behind it is compared with the host, the text of the address and the host that an account stands
for, and its address with the one of the client. A mask without an `@` does not come from
`pretty_mask` and is left out.
-/

set_option autoImplicit false

namespace Ircd.Channels
open Ircd.Text Ircd.Net Ircd.Match
open Ircd.Auth (userLen hostLen)

def nickLen : Nat := 15

def accountLen : Nat := 12

/-- What `find_ban` reads of a client. No nick and no user name has an `@`. -/
structure UserView where
  nick : CString
  username : CString
  host : CString
  realhost : CString
  account : CString
  ip : InAddr
  isAccount : Bool
  hiddenHost : Bool
  nick_fits : nick.chars.length ≤ nickLen
  username_fits : username.chars.length ≤ userLen
  host_fits : host.chars.length ≤ hostLen
  realhost_fits : realhost.chars.length ≤ hostLen
  account_fits : account.chars.length ≤ accountLen
  nick_plain : '@' ∉ nick.chars
  username_plain : '@' ∉ username.chars

def UserView.nu (cptr : UserView) : List Char := cptr.nick.chars ++ '!' :: cptr.username.chars

/-- `account.hidden`, which `ircd_snprintf` cuts to `HOSTLEN`, its terminator included. -/
def accountHost (hidden account : CString) : List Char := (account.chars ++ '.' :: hidden.chars).take (hostLen - 1)

/-- The host that an account stands for; `hidden` is `FEAT_HIDDEN_HOST`. -/
def UserView.sr (hidden : CString) (cptr : UserView) : Option (List Char) :=
  if !cptr.isAccount then none
  else if cptr.hiddenHost then some cptr.realhost.chars
  else some (accountHost hidden cptr.account)

def Ban.takesAddress (ban : Ban) (ip : InAddr) : Bool :=
  ban.flags.ipmask && (banAddress ban.banstr).any fun mask => ip.ipmaskCheck mask.ip (mask.pbits.getD 0)

def Ban.hitsHost (hidden : CString) (cptr : UserView) (ban : Ban) : Bool :=
  ban.takesAddress cptr.ip || ircMatch (hostPart ban.banstr) cptr.host.chars = 0 ||
    ircMatch (hostPart ban.banstr) (ircdNtoaR cptr.ip) = 0 ||
      (cptr.sr hidden).any fun sr => ircMatch (hostPart ban.banstr) sr = 0

def Ban.hits (hidden : CString) (cptr : UserView) (ban : Ban) : Bool :=
  ircMatch (nuPart ban.banstr) cptr.nu = 0 && ban.hitsHost hidden cptr

def findBanLoop (hidden : CString) (cptr : UserView) : Option Ban → List Ban → Option Ban
  | found, [] => found
  | found, ban :: banlist =>
    if found.isSome && !ban.flags.exception then findBanLoop hidden cptr found banlist
    else if !ban.hits hidden cptr then findBanLoop hidden cptr found banlist
    else if ban.flags.exception then none
    else findBanLoop hidden cptr (some ban) banlist

def findBan (hidden : CString) (cptr : UserView) (banlist : List Ban) : Option Ban :=
  findBanLoop hidden cptr none banlist

section
variable (hidden : CString) (cptr : UserView)

theorem findBanLoop_isSome (found : Option Ban) (banlist : List Ban) :
    (findBanLoop hidden cptr found banlist).isSome = true ↔
      (found.isSome = true ∨ ∃ ban ∈ banlist, ban.hits hidden cptr = true ∧ ban.flags.exception = false) ∧
        ∀ ban ∈ banlist, ban.flags.exception = true → ban.hits hidden cptr = false := by
  induction banlist generalizing found with
  | nil => simp [findBanLoop]
  | cons ban banlist ih =>
    rw [findBanLoop, List.forall_mem_cons]
    simp only [List.mem_cons, exists_eq_or_imp]
    cases hits : ban.hits hidden cptr <;> cases exception : ban.flags.exception <;> cases found <;> simp [ih]

theorem findBan_isSome (banlist : List Ban) :
    (findBan hidden cptr banlist).isSome = true ↔
      (∃ ban ∈ banlist, ban.hits hidden cptr = true ∧ ban.flags.exception = false) ∧
        ∀ ban ∈ banlist, ban.flags.exception = true → ban.hits hidden cptr = false := by
  rw [findBan, findBanLoop_isSome]
  simp

theorem findBan_alone {ban : Ban} (no_exception : ban.flags.exception = false) :
    (findBan hidden cptr [ban]).isSome = ban.hits hidden cptr := by
  rw [Bool.eq_iff_iff, findBan_isSome]
  simp [no_exception]

end

end Ircd.Channels
