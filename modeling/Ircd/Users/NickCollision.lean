import Ircd.Glines.Wire
import Ircd.Numnicks.IpBase64

/-! Nick collisions: what `ms_nick` does with a NICK message for a nick that is in use, and two
servers whose messages about the same nick cross.
-/

set_option autoImplicit false

namespace Ircd.Users
open Ircd.Text Ircd.Net Ircd.Numnicks
open Ircd.Glines (printTime userLen)

structure NickUser where
  username : List Char
  ip : InAddr
  lastnick : Int
  short : username.length ≤ userLen

/-- Who the NICK message comes from: a server that introduces a user, with the username and the
address as they stand in the message, or a user that this server has a record of. -/
inductive NickSource where
  | server (username : List Char) (address : List Char)
  | user (username : List Char) (ip : Option (List UInt16))

/-- Who has the nick, of those that `FindClient` can find. -/
inductive NickHolder where
  | nobody
  | sender (sameText : Bool)
  | unregistered
  | user (acptr : NickUser)

structure NickResult where
  killsNew : Bool
  killsOld : Bool
  setsNick : Bool
  deriving DecidableEq

def differ (acptr : NickUser) : NickSource → Bool
  | .server username address =>
    base64toip address ≠ some acptr.ip.words || ircdStrcmp acptr.username username ≠ 0
  | .user username ip => ip ≠ some acptr.ip.words || ircdStrcmp acptr.username username ≠ 0

/-- The end of `ms_nick`, for a nick that another user has. -/
def nickCollision (acptr : NickUser) (sptr : NickSource) (lastnick : Int) : NickResult :=
  let killsNew := (differ acptr sptr && lastnick ≥ acptr.lastnick) || (!differ acptr sptr && lastnick ≤ acptr.lastnick)
  if killsNew && lastnick ≠ acptr.lastnick then ⟨true, false, false⟩
  else ⟨killsNew, true, lastnick ≠ acptr.lastnick⟩

/-- `ms_nick` for a nick that `do_nick_name` accepts. -/
def msNick (holder : NickHolder) (sptr : NickSource) (timestamp : List Char) : NickResult :=
  match holder with
  | .nobody => ⟨false, false, true⟩
  | .sender sameText => ⟨false, false, !sameText⟩
  | .unregistered => ⟨false, true, true⟩
  | .user acptr => nickCollision acptr sptr (atoi timestamp)

/-- How a user comes to its nick: it is introduced with it or changes to it. -/
inductive Announcement where
  | introduction
  | change

/-- The address as the other server has it; `v6Ok` says whether that server takes IPv6 addresses. -/
def wireIp (v6Ok : Bool) (ip : InAddr) : Option (List UInt16) := base64toip (iptobase64 ip v6Ok)

/-- The source of the NICK message about a user. A user that changes its nick was introduced
before, and `set_nick_name` made the record. -/
def announced (v6Ok : Bool) (b : NickUser) : Announcement → NickSource
  | .introduction => .server b.username (iptobase64 b.ip v6Ok)
  | .change => .user (b.username.take userLen) (wireIp v6Ok b.ip)

/-- What a server that has `a` does with the NICK message about `b`. -/
def receives (v6Ok : Bool) (a b : NickUser) (how : Announcement) : NickResult :=
  msNick (.user a) (announced v6Ok b how) (printTime b.lastnick)

def wireTime (t : Int) : Int := atoi (printTime t)

/-- Whether a server that has `a` takes `b` for the same user@host. -/
def SameUserHost (v6Ok : Bool) (a b : NickUser) : Prop :=
  wireIp v6Ok b.ip = some a.ip.words ∧ ircdStrcmp a.username b.username = 0

theorem differ_announced (v6Ok : Bool) (a b : NickUser) (how : Announcement) :
    differ a (announced v6Ok b how) = false ↔ SameUserHost v6Ok a b := by
  cases how with
  | introduction => simp [announced, differ, SameUserHost, wireIp]
  | change => simp [announced, differ, SameUserHost, List.take_of_length_le b.short]

/-- The announcement alone does not matter: a collision kills both users when the timestamps are
equal, the younger one when the hosts differ and the older one when they are the same. -/
theorem nickCollision_spec (a : NickUser) (sptr : NickSource) (lastnick : Int) :
    ((nickCollision a sptr lastnick).killsNew = true ↔
      lastnick = a.lastnick ∨ (differ a sptr = true ↔ a.lastnick < lastnick)) ∧
    ((nickCollision a sptr lastnick).killsOld = true ↔
      lastnick = a.lastnick ∨ ¬ (differ a sptr = true ↔ a.lastnick < lastnick)) ∧
    (nickCollision a sptr lastnick).setsNick = !(nickCollision a sptr lastnick).killsNew := by
  unfold nickCollision
  rcases Int.lt_trichotomy lastnick a.lastnick with younger | same | older
  · have not_after : ¬ a.lastnick < lastnick := by omega
    have not_from : ¬ a.lastnick ≤ lastnick := by omega
    have upto : lastnick ≤ a.lastnick := by omega
    have other : lastnick ≠ a.lastnick := by omega
    cases differ a sptr <;> simp [not_after, not_from, upto, other]
  · cases differ a sptr <;> simp [same]
  · have not_upto : ¬ lastnick ≤ a.lastnick := by omega
    have since : a.lastnick ≤ lastnick := by omega
    have other : lastnick ≠ a.lastnick := by omega
    cases differ a sptr <;> simp [not_upto, since, other, older]

def KillsAgree (atA atB : NickResult) : Prop := atA.killsNew = atB.killsOld ∧ atA.killsOld = atB.killsNew

instance (atA atB : NickResult) : Decidable (KillsAgree atA atB) :=
  inferInstanceAs (Decidable (_ ∧ _))

theorem kills_agree_iff {a b : NickUser} {toA toB : NickSource} {timeB timeA : Int} :
    KillsAgree (nickCollision a toA timeB) (nickCollision b toB timeA) ↔
      (timeB = a.lastnick ∧ timeA = b.lastnick) ∨
      (timeB ≠ a.lastnick ∧ timeA ≠ b.lastnick ∧
        ((differ a toA = true ↔ differ b toB = true) ↔ ¬ (a.lastnick < timeB ↔ b.lastnick < timeA))) := by
  have atA := nickCollision_spec a toA timeB
  have atB := nickCollision_spec b toB timeA
  unfold KillsAgree
  rw [@Bool.eq_iff_iff (nickCollision a toA timeB).killsNew, @Bool.eq_iff_iff (nickCollision a toA timeB).killsOld,
    atA.1, atA.2.1, atB.1, atB.2.1]
  by_cases equalA : timeB = a.lastnick
  · simp only [equalA, true_or, true_and, ne_eq, not_true_eq_false, false_and, or_false, true_iff]
    grind
  · by_cases equalB : timeA = b.lastnick
    · simp only [equalA, equalB, false_or, true_or, iff_true, false_and, ne_eq, not_true_eq_false, and_false, or_false]
      grind
    · simp only [equalA, equalB, false_or, ne_eq, not_false_eq_true, true_and, false_and]
      grind

/-- The messages about two users with one nick cross: the servers kill the same users if and only
if each timestamp arrives equal to the other one, or neither does and the servers agree on whether
it is the same user@host just when they agree on which user is the older one. -/
theorem crossing_kills_agree_iff (v6A v6B : Bool) (a b : NickUser) (howA howB : Announcement) :
    KillsAgree (receives v6A a b howB) (receives v6B b a howA) ↔
      (wireTime b.lastnick = a.lastnick ∧ wireTime a.lastnick = b.lastnick) ∨
      (wireTime b.lastnick ≠ a.lastnick ∧ wireTime a.lastnick ≠ b.lastnick ∧
        ((SameUserHost v6A a b ↔ SameUserHost v6B b a) ↔
          ¬ (a.lastnick < wireTime b.lastnick ↔ b.lastnick < wireTime a.lastnick))) := by
  have sameA := differ_announced v6A a b howB
  have sameB := differ_announced v6B b a howA
  rw [← Bool.not_eq_true] at sameA sameB
  rw [← sameA, ← sameB, not_iff_not]
  exact kills_agree_iff

/-- The address `1:0:2:0:0:0:4:5`, which `1:0:2:0:3:0:4:5` arrives as. -/
def clearedAddr : InAddr := ⟨[1, 0, 2, 0, 0, 0, 4, 5], rfl⟩

/-- The same username, two addresses one of which arrives as the other, and different timestamps:
the server of the first user kills the first one, the server of the second kills the second one. -/
theorem crossing_kills_both :
    let a : NickUser := ⟨"ana".toList, clearedAddr, 1700000000, by decide⟩
    let b : NickUser := ⟨"ana".toList, scatteredAddr, 1700000060, by decide⟩
    receives true a b .introduction = ⟨false, true, true⟩ ∧ receives true b a .introduction = ⟨false, true, true⟩ ∧
      ¬ KillsAgree (receives true a b .introduction) (receives true b a .introduction) := by
  have scattered : base64toip (iptobase64 scatteredAddr true) = some clearedAddr.words :=
    base64toip_iptobase64_scattered.2.2
  have cleared : base64toip (iptobase64 clearedAddr true) = some clearedAddr.words := by
    rw [base64toip_iptobase64_v6 (by decide)]
    decide
  have atA : receives true ⟨"ana".toList, clearedAddr, 1700000000, by decide⟩
      ⟨"ana".toList, scatteredAddr, 1700000060, by decide⟩ .introduction = ⟨false, true, true⟩ := by
    simp only [receives, msNick, nickCollision, announced, differ, scattered]
    decide
  have atB : receives true ⟨"ana".toList, scatteredAddr, 1700000060, by decide⟩
      ⟨"ana".toList, clearedAddr, 1700000000, by decide⟩ .introduction = ⟨false, true, true⟩ := by
    simp only [receives, msNick, nickCollision, announced, differ, cleared]
    decide
  refine ⟨atA, atB, ?_⟩
  rw [atA, atB]
  decide

end Ircd.Users
