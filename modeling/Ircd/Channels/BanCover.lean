import Ircd.Channels.FindBan
import Ircd.Match.Mmatch
import Ircd.Match.PlainLanguage
import Ircd.Net.IpChars
import Mathlib.Data.List.TakeWhile

/-! When `bmatch` lets one ban stand for another.

Two bans with addresses are compared by their bits and by their texts. A ban without an address may
still cover the text of one that has one; the clients that are in the address alone are then
not on the covering ban, unless its text takes their addresses too.
-/

set_option autoImplicit false

namespace Ircd.Channels
open Ircd.Library.Glob Ircd.Text Ircd.Net Ircd.Match
open Ircd.Auth (userLen hostLen)

def covers (old new : Ban) : Bool := bmatch (fun oldMask newMask => mmatch oldMask newMask = some 0) old new

section
variable {old new : Ban} {oldMask newMask : IpMask}

/-- The masks before the host agree, and the prefix of the old address holds the new one. -/
def BitsCover (old new : Ban) (oldMask newMask : IpMask) : Prop :=
  mmatch (nuPart old.banstr) (nuPart new.banstr) = some 0 ∧ oldMask.pbits.getD 0 ≤ newMask.pbits.getD 0 ∧
    ∀ i < oldMask.pbits.getD 0, newMask.ip.bit i = oldMask.ip.bit i

/-- With two addresses the bits decide, and then the texts. -/
theorem covers_address_iff (old_address : old.flags.ipmask = true) (new_address : new.flags.ipmask = true)
    (old_ban : old.flags.exception = false) (new_ban : new.flags.exception = false)
    (old_mask : banAddress old.banstr = some oldMask) (new_mask : banAddress new.banstr = some newMask) :
    covers old new = true ↔ BitsCover old new oldMask newMask ∧ mmatch old.banstr new.banstr = some 0 := by
  unfold covers bmatch BitsCover
  rw [old_ban, new_ban, old_address, new_address, old_mask, new_mask, ← InAddr.ipmaskCheck_iff]
  by_cases longer : oldMask.pbits.getD 0 > newMask.pbits.getD 0
  · simp [longer]
  · simp [longer, Nat.le_of_not_lt longer, and_assoc]

instance : Decidable (BitsCover old new oldMask newMask) := by
  unfold BitsCover
  infer_instance

end

/-- `*!*@10.0.0.0/8` and `*!*@10.1.0.0/16` as `set_ban_mask` makes them. -/
def tenBan : Ban := ⟨"*!*@10.0.0.0/8".toList, [], 0, ⟨true, false, false, false, false, false, false⟩⟩

def tenOneBan : Ban := ⟨"*!*@10.1.0.0/16".toList, [], 0, ⟨true, false, false, false, false, false, false⟩⟩

theorem tenBan_address : banAddress tenBan.banstr = some ⟨.mapped 0x0a00 0, some 104, []⟩ := by decide +kernel

/-- The bits of `10.0.0.0/8` hold `10.1.0.0/16`, the text does not. -/
theorem tenBan_not_covers : ¬ (covers tenBan tenOneBan = true ↔
    BitsCover tenBan tenOneBan ⟨.mapped 0x0a00 0, some 104, []⟩ ⟨.mapped 0x0a01 0, some 112, []⟩) := by
  decide +kernel

theorem tenBan_covers_itself : covers tenBan tenBan = true :=
  (covers_address_iff rfl rfl rfl rfl tenBan_address tenBan_address).mpr (by decide +kernel)

/-- A mask as `pretty_mask` gives it: it has an `@`, and it fits into `banstr`. -/
structure BanMask where
  text : CString
  at_mem : '@' ∈ text.chars
  fits : text.chars.length ≤ nickLen + userLen + hostLen + 2

/-- What `set_ban_mask` makes of a mask, in a ban of zeros. -/
def setBanMask (mask : BanMask) : Ban :=
  ⟨mask.text.chars, [], 0, ⟨(banAddress mask.text.chars).isSome, false, false, false, false, false, false⟩⟩

theorem hostPart_free (banstr : List Char) : '@' ∉ hostPart banstr := by
  intro mem
  have there := List.mem_takeWhile_imp (List.mem_reverse.mp mem)
  simp at there

theorem parts_append {banstr : List Char} (at_mem : '@' ∈ banstr) : nuPart banstr ++ '@' :: hostPart banstr = banstr := by
  have whole := List.takeWhile_append_dropWhile (p := (· ≠ '@')) (l := banstr.reverse)
  have some_rest : banstr.reverse.dropWhile (· ≠ '@') ≠ [] := by
    intro nothing
    have all := List.dropWhile_eq_nil_iff.mp nothing '@' (List.mem_reverse.mpr at_mem)
    simp at all
  obtain ⟨c, rest, shape⟩ := List.exists_cons_of_ne_nil some_rest
  have first : c = '@' := by
    have head := List.head?_dropWhile_not (· ≠ '@') banstr.reverse
    rw [shape] at head
    simpa using head
  have back := congrArg List.reverse whole
  rw [List.reverse_append, List.reverse_reverse, shape, List.reverse_cons, first] at back
  rw [nuPart, hostPart, shape]
  simpa using back

/-- The masks have no escaped wildcard right behind an unescaped one, where `match` goes wrong. -/
def BanMask.Calm (mask : BanMask) : Prop := escapeAfterWild false mask.text.chars = false

section
variable (mask : BanMask)

theorem BanMask.tokens : maskTokens mask.text.chars =
    maskTokens (nuPart mask.text.chars) ++ .lit '@' :: maskTokens (hostPart mask.text.chars) := by
  rw [← maskTokens_cut (by decide) (by decide), parts_append mask.at_mem]

theorem BanMask.nul_nuPart : nul ∉ nuPart mask.text.chars := by
  intro mem
  apply mask.text.nul_free
  rw [← parts_append mask.at_mem]
  exact List.mem_append_left _ mem

theorem BanMask.nul_hostPart : nul ∉ hostPart mask.text.chars := by
  intro mem
  apply mask.text.nul_free
  rw [← parts_append mask.at_mem]
  exact List.mem_append_right _ (List.mem_cons_of_mem _ mem)

variable {mask}

theorem BanMask.Calm.parts (calm : mask.Calm) :
    escapeAfterWild false (nuPart mask.text.chars) = false ∧ escapeAfterWild false (hostPart mask.text.chars) = false := by
  unfold BanMask.Calm at calm
  rwa [← parts_append mask.at_mem, escapeAfterWild_cut (by decide) (by decide), Bool.or_eq_false_iff] at calm

end

theorem misses_of_free {x : Char} {text : List Char} (below : x.toNat < 65) (free : x ∉ text) :
    Misses toLower x (maskTokens text) := by
  intro c mem same
  rw [toLower_below below same] at mem
  exact free (mem_maskTokens mem)

theorem parts_covered {old new : BanMask} (covered : mmatch old.text.chars new.text.chars = some 0)
    {nu host : List Char} (free : '@' ∉ nu) (new_nu : InGlob (nuPart new.text.chars) nu)
    (new_host : InGlob (hostPart new.text.chars) host) :
    InGlob (nuPart old.text.chars) nu ∧ InGlob (hostPart old.text.chars) host := by
  obtain ⟨r, value, sound⟩ := mmatch_covers old.text new.text
  rw [value, Option.some.injEq] at covered
  have whole := sound covered
  rw [old.tokens, new.tokens] at whole
  have at_free (mask : BanMask) : Misses toLower '@' (maskTokens (hostPart mask.text.chars)) :=
    misses_of_free (by decide) (hostPart_free _)
  have nul_free (mask : BanMask) : Misses toLower nul (maskTokens (hostPart mask.text.chars)) :=
    misses_of_free (by decide) mask.nul_hostPart
  exact whole.parts (fun d same => (toLower_below (by decide) same.symm)) (by decide) (at_free old) (nul_free old)
    (at_free new) (nul_free new) free new_nu new_host

theorem UserView.nul_nu (cptr : UserView) : nul ∉ cptr.nu := by
  have mark : nul ≠ '!' := by decide
  simp [UserView.nu, cptr.nick.nul_free, cptr.username.nul_free, mark]

theorem UserView.nu_plain (cptr : UserView) : '@' ∉ cptr.nu := by
  simp [UserView.nu, cptr.nick_plain, cptr.username_plain]

theorem nul_ircdNtoaR (ip : InAddr) : nul ∉ ircdNtoaR ip := by
  intro mem
  exact absurd ((ircdNtoaR_chars ip).2 nul mem) (by decide)

theorem UserView.nul_sr {hidden : CString} {cptr : UserView} {sr : List Char} (stands : cptr.sr hidden = some sr) :
    nul ∉ sr := by
  unfold UserView.sr at stands
  split at stands
  · cases stands
  · split at stands
    · rw [← Option.some.inj stands]
      exact cptr.realhost.nul_free
    · rw [← Option.some.inj stands, accountHost]
      intro mem
      have dot : nul ≠ '.' := by decide
      have whole := List.mem_of_mem_take mem
      simp [cptr.account.nul_free, hidden.nul_free, dot] at whole

def UserView.atAddress (cptr : UserView) : UserView :=
  { cptr with
    host := ⟨ircdNtoaR cptr.ip, nul_ircdNtoaR cptr.ip, (ircdNtoaR_chars cptr.ip).bytes⟩
    isAccount := false
    host_fits := (ircdNtoaR_chars cptr.ip).1.trans (by decide) }

section
variable (hidden : CString) {old new : BanMask}

/-- Every client that the new ban is on alone is one that the old ban is on. -/
def CoversClients (old new : BanMask) : Prop :=
  ∀ cptr : UserView, (findBan hidden cptr [setBanMask new]).isSome = true →
    (findBan hidden cptr [setBanMask old]).isSome = true

/-- An old ban without an address takes the text of every address in the new one. -/
def AddressesCovered (old new : BanMask) : Prop :=
  banAddress old.text.chars = none → ∀ cptr : UserView, ircMatch (nuPart new.text.chars) cptr.nu = 0 →
    (setBanMask new).takesAddress cptr.ip = true → ircMatch (hostPart old.text.chars) (ircdNtoaR cptr.ip) = 0

variable {hidden}

theorem CoversClients.addresses (clients : CoversClients hidden old new) : AddressesCovered old new := by
  intro no_address cptr nu inside
  have new_hits : (setBanMask new).hits hidden cptr.atAddress = true := by
    unfold Ban.hits Ban.hitsHost
    rw [Bool.and_eq_true, decide_eq_true_iff]
    refine ⟨nu, ?_⟩
    rw [show (setBanMask new).takesAddress cptr.atAddress.ip = true from inside]
    simp
  have found := clients cptr.atAddress ((findBan_alone hidden _ rfl).trans new_hits)
  rw [findBan_alone hidden _ rfl] at found
  have outside : (setBanMask old).takesAddress cptr.atAddress.ip = false := by
    simp [Ban.takesAddress, setBanMask, no_address]
  unfold Ban.hits Ban.hitsHost at found
  rw [outside] at found
  have on_host := (Bool.and_eq_true_iff.mp found).2
  simp only [UserView.sr, UserView.atAddress, setBanMask, Bool.not_false, if_true, Option.any_none, Bool.or_false,
    Bool.false_or] at on_host
  rcases Bool.or_eq_true_iff.mp on_host with on_host | on_text
  · exact of_decide_eq_true on_host
  · exact of_decide_eq_true on_text

theorem covers_text {old new : Ban} (covering : covers old new = true) : mmatch old.banstr new.banstr = some 0 := by
  unfold covers bmatch at covering
  split at covering
  · cases covering
  · split at covering
    · exact of_decide_eq_true covering
    · split at covering
      · split at covering
        · cases covering
        · split at covering
          · cases covering
          · split at covering
            · cases covering
            · exact of_decide_eq_true covering
      · exact of_decide_eq_true covering

theorem takesAddress_iff (mask : BanMask) (ip : InAddr) : (setBanMask mask).takesAddress ip = true ↔
    ∃ read, banAddress mask.text.chars = some read ∧ ip.ipmaskCheck read.ip (read.pbits.getD 0) = true := by
  cases address : banAddress mask.text.chars with
  | none => simp [Ban.takesAddress, setBanMask, address]
  | some read => simp [Ban.takesAddress, setBanMask, address]

theorem takesAddress_of_covers (covering : covers (setBanMask old) (setBanMask new) = true) {ip : InAddr}
    {oldMask : IpMask} (old_mask : banAddress old.text.chars = some oldMask)
    (inside : (setBanMask new).takesAddress ip = true) : (setBanMask old).takesAddress ip = true := by
  obtain ⟨newMask, new_mask, inside⟩ := (takesAddress_iff new ip).mp inside
  have old_flag : (setBanMask old).flags.ipmask = true := congrArg Option.isSome old_mask
  have new_flag : (setBanMask new).flags.ipmask = true := congrArg Option.isSome new_mask
  obtain ⟨⟨-, shorter, bits⟩, -⟩ := (covers_address_iff old_flag new_flag rfl rfl old_mask new_mask).mp covering
  refine (takesAddress_iff old ip).mpr ⟨oldMask, old_mask, ?_⟩
  exact InAddr.ipmaskCheck_trans shorter inside ((InAddr.ipmaskCheck_iff _ _ _).mpr bits)

theorem AddressesCovered.clients (covering : covers (setBanMask old) (setBanMask new) = true) (old_calm : old.Calm)
    (new_calm : new.Calm) (addresses : AddressesCovered old new) : CoversClients hidden old new := by
  intro cptr found
  rw [findBan_alone hidden _ rfl] at found ⊢
  obtain ⟨new_nu, new_host⟩ := Bool.and_eq_true_iff.mp found
  rw [decide_eq_true_iff] at new_nu
  have text := covers_text covering
  have in_nu := (ircMatch_decides new.nul_nuPart cptr.nul_nu new_calm.parts.1).mp new_nu
  have old_nu : ircMatch (nuPart old.text.chars) cptr.nu = 0 :=
    (ircMatch_decides old.nul_nuPart cptr.nul_nu old_calm.parts.1).mpr
      (parts_covered text cptr.nu_plain in_nu (matches_shortest nul)).1
  -- A host that the new part takes is taken by the old one.
  have host_covered {host : List Char} (clean : nul ∉ host) (hit : ircMatch (hostPart new.text.chars) host = 0) :
      ircMatch (hostPart old.text.chars) host = 0 := by
    have in_host := (ircMatch_decides new.nul_hostPart clean new_calm.parts.2).mp hit
    exact (ircMatch_decides old.nul_hostPart clean old_calm.parts.2).mpr (parts_covered text cptr.nu_plain in_nu in_host).2
  refine Bool.and_eq_true_iff.mpr ⟨decide_eq_true old_nu, ?_⟩
  simp only [Ban.hitsHost, Bool.or_eq_true, decide_eq_true_eq, Option.any_eq_true] at new_host ⊢
  rcases new_host with ((address | host) | ip_text) | ⟨sr, stands, hit⟩
  · cases old_mask : banAddress old.text.chars with
    | none => exact .inl (.inr (addresses old_mask cptr new_nu address))
    | some oldMask => exact .inl (.inl (.inl (takesAddress_of_covers covering old_mask address)))
  · exact .inl (.inl (.inr (host_covered cptr.host.nul_free host)))
  · exact .inl (.inr (host_covered (nul_ircdNtoaR cptr.ip) ip_text))
  · exact .inr ⟨sr, stands, host_covered (UserView.nul_sr stands) hit⟩

end

/-- `*!*@10.0.0.0/?`, which has no address, and `*!*@10.0.0.0/8`, which has one. -/
def wildPrefixMask : BanMask :=
  ⟨⟨"*!*@10.0.0.0/?".toList, by decide, by decide⟩, by decide, by decide⟩

def tenMask : BanMask := ⟨⟨"*!*@10.0.0.0/8".toList, by decide, by decide⟩, by decide, by decide⟩

def usersHidden : CString := ⟨"users.hidden".toList, by decide, by decide⟩

def atTenOne : UserView where
  nick := ⟨"a".toList, by decide, by decide⟩
  username := ⟨"b".toList, by decide, by decide⟩
  host := ⟨"c".toList, by decide, by decide⟩
  realhost := ⟨"c".toList, by decide, by decide⟩
  account := ⟨[], List.not_mem_nil, fun _ mem => absurd mem List.not_mem_nil⟩
  ip := .mapped 0x0a01 0x0203
  isAccount := false
  hiddenHost := false
  nick_fits := by decide
  username_fits := by decide
  host_fits := by decide
  realhost_fits := by decide
  account_fits := by decide
  nick_plain := by decide
  username_plain := by decide

end Ircd.Channels
