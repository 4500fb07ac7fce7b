import Ircd.Glines.Modify
import Ircd.Text.Lines

/-! G-lines on the wire: the line that `gline_burst`, `gline_resend` and `gline_propagate` send
for a record, and the record that `ms_gline` makes of it where there was none.
-/

set_option autoImplicit false

namespace Ircd.Glines
open Ircd.Text

/-- `struct Gline` with its mask; a mask without a host is a channel or a real name. -/
structure GlineRecord where
  user : List Char
  host : Option (List Char)
  active : Bool
  expire : Int
  lastmod : Int
  lifetime : Int
  reason : List Char
  deriving DecidableEq

/-- `canon_userhost` with the default user of `gline_add`. -/
def canonUserhost (userhost : List Char) : List Char × List Char :=
  if '@' ∈ userhost then (userhost.takeWhile (· ≠ '@'), (userhost.dropWhile (· ≠ '@')).drop 1) else (['*'], userhost)

def channelLen : Nat := 200
def realLen : Nat := 50
def userLen : Nat := 10
def hostLen : Nat := 63

/-- The user and host of a new record, as `gline_add` finds them; `none` where it refuses the mask. -/
def maskParts (userhost : List Char) : Option (List Char × Option (List Char)) :=
  if peek userhost = '#' ∨ peek userhost = '&' then
    if (userhost.drop 1).length ≥ channelLen + 6 then none else some (userhost, none)
  else if peek userhost = '$' then
    if userhost[1]? ≠ some 'R' ∨ (userhost.drop 2).length ≥ realLen + 6 then none else some (userhost, none)
  else
    let (user, host) := canonUserhost userhost
    if userLen + hostLen + 2 < (user ++ '@' :: host).length then none else some (user, some host)

def GlineRecord.mask (g : GlineRecord) : List Char := g.user ++ g.host.elim [] ('@' :: ·)

def printTime (t : Int) : List Char := Nat.toDigits 10 (t % 2 ^ 64).toNat

def glineWords (now : Int) (g : GlineRecord) : List (List Char) :=
  [['*'], (if g.active then '+' else '-') :: g.mask, printTime (g.expire - now), printTime g.lastmod,
    printTime g.lifetime]

/-- The line about a record, from a source that is written as its numeric. -/
def glineLine (now : Int) (source : List Char) (g : GlineRecord) : List Char :=
  commandLine source ['G', 'L'] (glineWords now g) g.reason

/-- `gline_add` for a global record that comes from another server. -/
def glineAdd (now : Int) (force active : Bool) (userhost reason : List Char) (expire lastmod lifetime : Int) :
    Option GlineRecord :=
  match maskParts userhost with
  | none => none
  | some (user, host) =>
    if !force && (expire ≤ now || expire > now + GLINE_MAX_EXPIRE) then none
    else
      some { user, host, active := active && !(expire ≤ now), expire, lastmod,
             lifetime := if lifetime = 0 then expire else lifetime, reason }

def maskAction : List Char → GlineAction × List Char
  | '+' :: mask => (.activate, mask)
  | '-' :: mask => (.deactivate, mask)
  | '>' :: mask => (.localActivate, mask)
  | '<' :: mask => (.localDeactivate, mask)
  | mask => (.modify, mask)

/-- The global record that `ms_gline` makes of a message about a mask that has none; `server`
says whether a server stands in the prefix. -/
def msGlineNew (now : Int) (server : Bool) (parv : List (List Char)) : Option GlineRecord :=
  match parv with
  | target :: mask :: more =>
    let (action, mask) := maskAction (if peek mask = '!' then mask.drop 1 else mask)
    if mask = [] ∨ action.isLocal ∨ target ≠ ['*'] then none
    else
      match more with
      | expire :: lastmod :: more =>
        let expire := absExpire now (atoi expire)
        let lifetime := if 2 ≤ more.length then atoi (more.headD []) else 0
        let reason := more.getLastD "No reason".toList
        if atoi lastmod = 0 ∨ expire = 0 then none
        else glineAdd now server (action ≠ .deactivate) mask reason expire (atoi lastmod) lifetime
      | _ => none
  | _ => none

def fromServer (source : List Char) : Bool := source.length ≤ 2

def recreated (now : Int) (source : List Char) (g : GlineRecord) : Option GlineRecord :=
  msGlineNew now (fromServer source) (lineParams (sentLine (glineLine now source g)))

theorem atoi_printTime {t : Int} (low : -2 ^ 63 ≤ t) (high : t < 2 ^ 63) : atoi (printTime t) = atoiTime t := by
  rw [printTime, atoi_digits, atoiTime]
  by_cases past : 0 ≤ t
  · have value : (t % 2 ^ 64).toNat = t.toNat := by rw [Int.emod_eq_of_lt past (by omega)]
    have small : min t.toNat (2 ^ 63 - 1) = t.toNat := by omega
    have same : min t (2 ^ 63 - 1) = t := by omega
    rw [if_pos past, value, small, same, asInt, Int.bmod]
    split <;> split <;> omega
  · have value : (t % 2 ^ 64).toNat = (t + 2 ^ 64).toNat := by omega
    have large : min (t + 2 ^ 64).toNat (2 ^ 63 - 1) = 2 ^ 63 - 1 := by omega
    rw [if_neg past, value, large]
    decide

theorem canonUserhost_split {front back : List Char} (first : '@' ∉ front) :
    canonUserhost (front ++ '@' :: back) = (front, back) := by
  have before : ∀ c ∈ front, decide (c ≠ '@') = true := by
    intro c mem
    simp only [decide_eq_true_eq]
    rintro rfl
    exact first mem
  rw [canonUserhost, if_pos (List.mem_append_right _ List.mem_cons_self), List.takeWhile_append_of_pos before,
    List.dropWhile_append_of_pos before]
  simp

theorem maskParts_text {userhost user : List Char} {host : Option (List Char)}
    (parts : maskParts userhost = some (user, host)) :
    user ++ host.elim [] ('@' :: ·) = userhost ∨
      user ++ host.elim [] ('@' :: ·) = '*' :: '@' :: userhost ∧ user = ['*'] ∧ host = some userhost ∧
        (user ++ '@' :: userhost).length ≤ userLen + hostLen + 2 := by
  rw [maskParts] at parts
  split_ifs at parts with channel long realname bad
  · cases parts
    exact .inl (List.append_nil _)
  · cases parts
    exact .inl (List.append_nil _)
  · by_cases split_here : '@' ∈ userhost
    · obtain ⟨front, back, rfl, first⟩ := List.eq_append_cons_of_mem split_here
      simp only [canonUserhost_split first] at parts
      split at parts
      · cases parts
      · cases parts
        exact .inl rfl
    · have canon : canonUserhost userhost = (['*'], userhost) := if_neg split_here
      simp only [canon] at parts
      split at parts
      · cases parts
      · rename_i short
        cases parts
        exact .inr ⟨rfl, rfl, rfl, Nat.le_of_not_lt short⟩

theorem maskParts_mask {userhost user : List Char} {host : Option (List Char)}
    (parts : maskParts userhost = some (user, host)) :
    maskParts (user ++ host.elim [] ('@' :: ·)) = some (user, host) := by
  rcases maskParts_text parts with same | ⟨text, rfl, rfl, short⟩
  · rw [same, parts]
  · have again := @canonUserhost_split ['*'] userhost (by decide)
    have star : peek ('*' :: '@' :: userhost) = '*' := peek_cons _ _
    rw [text, maskParts, star, if_neg (by decide), if_neg (by decide)]
    simp only [List.cons_append, List.nil_append] at again short
    simp only [again, List.cons_append, List.nil_append]
    rw [if_neg (Nat.not_lt.mpr short)]

structure GlineRecord.Kept (now : Int) (g : GlineRecord) : Prop where
  mask : ∃ userhost, ' ' ∉ userhost ∧ maskParts userhost = some (g.user, g.host)
  alive : now < g.lifetime
  dated : 0 < g.lastmod
  expire_pos : 0 ≤ g.expire
  time : g.expire < 2 ^ 63 ∧ g.lastmod < 2 ^ 63 ∧ g.lifetime < 2 ^ 63

variable {now : Int} {g : GlineRecord}

theorem GlineRecord.Kept.maskParts (kept : g.Kept now) :
    maskParts g.mask = some (g.user, g.host) := by
  obtain ⟨userhost, -, parts⟩ := kept.mask
  exact maskParts_mask parts

theorem maskParts_length {userhost user : List Char} {host : Option (List Char)}
    (parts : maskParts userhost = some (user, host)) : (user ++ host.elim [] ('@' :: ·)).length ≤ 206 := by
  have again := maskParts_mask parts
  generalize user ++ host.elim [] ('@' :: ·) = mask at again
  rw [maskParts] at again
  split_ifs at again with channel long realname bad
  · simp only [List.length_drop, channelLen] at long
    omega
  · simp only [not_or, List.length_drop, realLen] at bad
    omega
  · by_cases split_here : '@' ∈ mask
    · obtain ⟨front, back, rfl, first⟩ := List.eq_append_cons_of_mem split_here
      simp only [canonUserhost_split first, userLen, hostLen] at again
      split at again
      · cases again
      · omega
    · have canon : canonUserhost mask = (['*'], mask) := if_neg split_here
      simp only [canon, userLen, hostLen, List.length_append, List.length_cons] at again
      split at again
      · cases again
      · omega

theorem GlineRecord.Kept.mask_word (kept : g.Kept now) (sign : Char) (visible : sign ≠ ' ') (first : sign ≠ ':') :
    MiddleWord (sign :: g.mask) := by
  obtain ⟨userhost, unbroken, parts⟩ := kept.mask
  have blank : ' ' ∉ g.mask := by
    rcases maskParts_text parts with same | ⟨text, -⟩
    · rw [GlineRecord.mask, same]
      exact unbroken
    · rw [GlineRecord.mask, text]
      simpa using unbroken
  refine ⟨List.cons_ne_nil _ _, ?_, by rwa [peek_cons]⟩
  rw [List.mem_cons, not_or]
  exact ⟨visible.symm, blank⟩

structure SourceNumeric (source : List Char) : Prop where
  unbroken : ' ' ∉ source
  short : source.length ≤ 5

theorem glineWords_middle (kept : g.Kept now) :
    ∀ word ∈ glineWords now g, MiddleWord word := by
  have star : MiddleWord ['*'] := ⟨by decide, by decide, by decide⟩
  have mask : MiddleWord ((if g.active then '+' else '-') :: g.mask) := by
    split
    · exact kept.mask_word '+' (by decide) (by decide)
    · exact kept.mask_word '-' (by decide) (by decide)
  simp only [glineWords, List.forall_mem_cons, List.not_mem_nil, false_implies, implies_true, and_true]
  exact ⟨star, mask, printed_middle _, printed_middle _, printed_middle _⟩

theorem printTime_length (t : Int) : (printTime t).length ≤ 20 := length_printed (by omega)

theorem lineHeader_length {source : List Char} (numeric : SourceNumeric source) (kept : g.Kept now) :
    (lineHeader source ['G', 'L'] (glineWords now g)).length ≤ lineLen := by
  obtain ⟨userhost, -, parts⟩ := kept.mask
  have mask : g.mask.length ≤ 206 := maskParts_length parts
  have expire := printTime_length (g.expire - now)
  have lastmod := printTime_length g.lastmod
  have lifetime := printTime_length g.lifetime
  have short := numeric.short
  simp only [lineHeader, glineWords, List.length_append, List.length_cons, List.length_nil, List.flatMap_cons,
    List.flatMap_nil, lineLen]
  omega

def arrivingReason (now : Int) (source : List Char) (g : GlineRecord) : List Char :=
  g.reason.take (lineLen - (lineHeader source ['G', 'L'] (glineWords now g)).length)

theorem arrivingReason_eq_iff {source : List Char} (numeric : SourceNumeric source) (kept : g.Kept now) :
    arrivingReason now source g = g.reason ↔ (glineLine now source g).length ≤ lineLen := by
  have header := lineHeader_length numeric kept
  rw [arrivingReason, glineLine, commandLine_eq, List.length_append]
  constructor
  · intro whole
    have shorter := congrArg List.length whole
    rw [List.length_take] at shorter
    omega
  · exact fun fits => List.take_of_length_le (by omega)

theorem lineParams_glineLine {source : List Char} (numeric : SourceNumeric source) (kept : g.Kept now) :
    lineParams (sentLine (glineLine now source g)) =
      glineWords now g ++ [arrivingReason now source g] := by
  rw [glineLine, sentLine_commandLine (lineHeader_length numeric kept)]
  exact lineParams_commandLine numeric.unbroken (by decide) (by decide) (glineWords_middle kept)
    (show 5 < maxPara by decide) _

theorem readExpire {e : Int} (present : 0 < now) (low : 0 ≤ e) (high : e < 2 ^ 63) (int : now < 2 ^ 31) :
    absExpire now (atoi (printTime (e - now))) = e ↔
      now - 1 ≤ e ∧ e - now < 2 ^ 31 ∧ e - now < now - PASTWATCH := by
  have watch : PASTWATCH = 157680000 := rfl
  rw [atoi_printTime (by omega) (by omega), absExpire, atoiTime]
  by_cases future : 0 ≤ e - now
  · rw [if_pos future, Int.min_eq_left (by omega), Int.bmod]
    split <;> split <;> omega
  · rw [if_neg future]
    split <;> omega

theorem readTime {t : Int} (low : 0 < t) (high : t < 2 ^ 63) : atoi (printTime t) = t ↔ t < 2 ^ 31 := by
  rw [atoi_printTime (by omega) high, atoiTime, if_pos (by omega), Int.min_eq_left (by omega), Int.bmod]
  split <;> omega

theorem readTime_zero {t : Int} (low : 0 < t) (high : t < 2 ^ 63) (zero : atoi (printTime t) = 0) : 2 ^ 32 ≤ t := by
  rw [atoi_printTime (by omega) high, atoiTime, if_pos (by omega), Int.min_eq_left (by omega), Int.bmod] at zero
  split at zero <;> omega

theorem GlineRecord.Kept.mask_ne_nil (kept : g.Kept now) : g.mask ≠ [] := by
  intro empty
  have parts := kept.maskParts
  rw [empty, show Glines.maskParts [] = some (['*'], some []) from by decide, Option.some.injEq, Prod.mk.injEq] at parts
  rw [GlineRecord.mask, ← parts.1, ← parts.2] at empty
  exact absurd empty (by decide)

theorem recreated_eq {source : List Char} (numeric : SourceNumeric source) (kept : g.Kept now) :
    recreated now source g =
      let expire := absExpire now (atoi (printTime (g.expire - now)))
      if atoi (printTime g.lastmod) = 0 ∨ expire = 0 then none
      else if !fromServer source && (expire ≤ now || expire > now + GLINE_MAX_EXPIRE) then none
      else
        some { g with
          active := g.active && !(expire ≤ now)
          expire := expire
          lastmod := atoi (printTime g.lastmod)
          lifetime := if atoi (printTime g.lifetime) = 0 then expire else atoi (printTime g.lifetime)
          reason := arrivingReason now source g } := by
  have some_mask := kept.mask_ne_nil
  have parts := kept.maskParts
  rw [recreated, lineParams_glineLine numeric kept]
  cases active : g.active <;>
    simp [glineWords, msGlineNew, maskAction, active, some_mask, glineAdd, parts, GlineAction.isLocal]

/-- The other server makes the same record exactly where the expire is not earlier than the
last second, the times fit an `int`, a user does not send an expire that only a server may
send, and the line is not too long. -/
theorem recreated_iff {now : Int} {source : List Char} {g : GlineRecord} (present : 0 < now) (int : now < 2 ^ 31)
    (numeric : SourceNumeric source) (kept : g.Kept now) :
    recreated now source g = some g ↔
      now - 1 ≤ g.expire ∧ g.expire - now < 2 ^ 31 ∧ g.expire - now < now - PASTWATCH ∧
        (g.active = true → now < g.expire) ∧ g.lastmod < 2 ^ 31 ∧ g.lifetime < 2 ^ 31 ∧
        (fromServer source = false → now < g.expire ∧ g.expire ≤ now + GLINE_MAX_EXPIRE) ∧
        (glineLine now source g).length ≤ lineLen := by
  have expire := readExpire present kept.expire_pos kept.time.1 int
  have lastmod := readTime kept.dated kept.time.2.1
  have lifetime := readTime (show 0 < g.lifetime by have := kept.alive; omega) kept.time.2.2
  have no_lifetime := readTime_zero (show 0 < g.lifetime by have := kept.alive; omega) kept.time.2.2
  have reason := arrivingReason_eq_iff numeric kept
  have dated := kept.dated
  have watch : PASTWATCH = 157680000 := rfl
  rw [recreated_eq numeric kept]
  simp only
  constructor
  · intro same
    split at same
    · cases same
    · split at same
      · cases same
      · rename_i refused
        have same := Option.some.inj same
        have same_expire := congrArg GlineRecord.expire same
        have same_active := congrArg GlineRecord.active same
        have same_lifetime := congrArg GlineRecord.lifetime same
        simp only at same_expire same_active same_lifetime
        have read := expire.mp same_expire
        rw [same_expire] at refused same_active same_lifetime
        refine ⟨read.1, read.2.1, read.2.2, ?_, lastmod.mp (congrArg GlineRecord.lastmod same), ?_, ?_,
          reason.mp (congrArg GlineRecord.reason same)⟩
        · intro on
          simpa [on] using same_active
        · apply lifetime.mp
          by_cases zero : atoi (printTime g.lifetime) = 0
          · have large := no_lifetime zero
            rw [if_pos zero] at same_lifetime
            omega
          · rwa [if_neg zero] at same_lifetime
        · intro user
          simpa [user] using refused
  · rintro ⟨recent, near, relative, on, lastmod_int, lifetime_int, forced, fits⟩
    rw [expire.mpr ⟨recent, near, relative⟩, lastmod.mpr lastmod_int, lifetime.mpr lifetime_int, reason.mpr fits,
      if_neg (by omega), if_neg, if_neg (by have := kept.alive; omega)]
    · have same_active : (g.active && !decide (g.expire ≤ now)) = g.active := by
        cases active : g.active with
        | false => rfl
        | true => simpa using on active
      rw [same_active]
    · intro refused
      cases server : fromServer source with
      | true => simp [server] at refused
      | false =>
        have forced := forced server
        simp only [server, Bool.not_false, Bool.true_and, Bool.or_eq_true, decide_eq_true_eq] at refused
        omega

def hourRecord : GlineRecord :=
  ⟨['*'], some "spam.example".toList, true, 1700003600, 1700000000, 1700003600, "Spam".toList⟩

theorem hourRecord_kept : hourRecord.Kept 1700000000 where
  mask := ⟨"spam.example".toList, by decide, by decide⟩
  alive := by decide
  dated := by decide
  expire_pos := by decide
  time := by decide

theorem recreated_hour : recreated 1700000000 ['A', 'B'] hourRecord = some hourRecord :=
  (recreated_iff (by decide) (by decide) ⟨by decide, by decide⟩ hourRecord_kept).mpr (by decide)

/-- A record that ended an hour ago comes to have ended a second ago. -/
theorem ended_not_recreated : ({ hourRecord with active := false, expire := 1699996400 }).Kept 1700000000 ∧
    recreated 1700000000 ['A', 'B'] { hourRecord with active := false, expire := 1699996400 } =
      some { hourRecord with active := false, expire := 1699999999 } ∧
    recreated 1700000000 ['A', 'B'] { hourRecord with active := false, expire := 1699996400 } ≠
      some { hourRecord with active := false, expire := 1699996400 } := by
  refine ⟨⟨⟨"spam.example".toList, by decide, by decide⟩, by decide, by decide, by decide, by decide⟩, ?_, ?_⟩
  · decide
  · decide

end Ircd.Glines
