import Ircd.Text.Numbers
import Mathlib.Logic.Relation
import Mathlib.Order.WellFounded
import Mathlib.Tactic.Common

/-! Changes of a global jupe that two linked servers make at once.

Each server changes the jupe that both hold and announces the change, if `jupe.c` does. A message
with a newer `lastmod` is taken, one with an older `lastmod` is answered with the jupe as it is, and
one with the same is dropped. The messages of a direction arrive in order.
-/

set_option autoImplicit false

namespace Ircd.Jupes
open Ircd.Text

/-- A jupe that is not local to the server, as far as changes go; it has not expired. -/
structure Jupe where
  active : Bool
  ldeact : Bool
  lastmod : Int
  deriving DecidableEq, Repr

def Jupe.isActive (j : Jupe) : Bool := j.active && !j.ldeact

def Jupe.touch (j : Jupe) (lastmod : Int) : Int := if j.lastmod ≥ lastmod then j.lastmod + 1 else lastmod

/-- `jupe_activate`: the jupe, and whether it is propagated. -/
def jupeActivate (j : Jupe) (lastmod : Int) (isLocal : Bool) : Jupe × Bool :=
  let changed := if isLocal then { j with ldeact := false } else { j with active := true, lastmod := j.touch lastmod }
  (changed, !j.isActive && !isLocal)

def jupeDeactivate (j : Jupe) (lastmod : Int) (isLocal : Bool) : Jupe × Bool :=
  let changed := if isLocal then { j with ldeact := true } else { j with active := false, lastmod := j.touch lastmod }
  (changed, j.isActive && !isLocal)

/-- A change of the whole net, by `mo_jupe` or by a message. -/
def change (j : Jupe) (active : Bool) (lastmod : Int) : Jupe × Bool :=
  if active then jupeActivate j lastmod false else jupeDeactivate j lastmod false

structure Msg where
  active : Bool
  lastmod : List Char
  deriving DecidableEq, Repr

/-- What `propagate_jupe` and `jupe_resend` write. -/
def Jupe.msg (j : Jupe) : Msg := ⟨j.active, Nat.toDigits 10 j.lastmod.toNat⟩

/-- `ms_jupe` outside of a burst, for a jupe that is found: the jupe and what is sent back. -/
def msJupe (j : Jupe) (m : Msg) : Jupe × List Msg :=
  if j.lastmod < atoi m.lastmod then ((change j m.active (atoi m.lastmod)).1, [])
  else if j.lastmod = atoi m.lastmod then (j, [])
  else (j, [j.msg])

structure Net where
  jupe : Bool → Jupe
  inbox : Bool → List Msg

inductive Step : Net → Net → Prop
  | deliver {net : Net} (side : Bool) (m : Msg) (rest : List Msg) (first : net.inbox side = m :: rest) :
      Step net
        { jupe := Function.update net.jupe side (msJupe (net.jupe side) m).1
          inbox := Function.update (Function.update net.inbox side rest) (!side)
            (net.inbox (!side) ++ (msJupe (net.jupe side) m).2) }

def Quiet (net : Net) : Prop := ∀ side, net.inbox side = []

/-- What one of the two servers does: the sense of its change and its time. -/
structure Change where
  active : Bool
  time : Int
  deriving DecidableEq, Repr

/-- Both servers have made their changes and nothing has arrived yet. -/
def crossing (held : Bool → Jupe) (changes : Bool → Change) : Net :=
  let made (side : Bool) := change (held side) (changes side).active (changes side).time
  { jupe := fun side => (made side).1
    inbox := fun side => if (made !side).2 then [(made !side).1.msg] else [] }

/-- The exchange comes to an end, and then both sides agree on whether the jupe is active. -/
def Converges (net : Net) : Prop :=
  Acc (fun after before => Step before after) net ∧
    ∀ net', Relation.ReflTransGen Step net net' → Quiet net' → (net'.jupe false).active = (net'.jupe true).active

/-- The `lastmod` of a jupe and the times of the changes are of an age that an `int` counts. -/
structure Timely (lastmod : Int) (changes : Bool → Change) : Prop where
  past : 0 ≤ lastmod
  lastmod_int : lastmod + 1 < 2 ^ 31
  time_int : ∀ side, (changes side).time < 2 ^ 31

/-- The activity and the `lastmod` of a jupe. -/
def Jupe.Is (j : Jupe) (active : Bool) (lastmod : Int) : Prop := j.active = active ∧ j.lastmod = lastmod

theorem change_is (j : Jupe) (active : Bool) (lastmod : Int) :
    (change j active lastmod).1.Is active (max (j.lastmod + 1) lastmod) := by
  have touched : j.touch lastmod = max (j.lastmod + 1) lastmod := by
    unfold Jupe.touch
    split <;> omega
  cases active <;> exact ⟨rfl, touched⟩

theorem change_announced (j : Jupe) (active : Bool) (lastmod : Int) :
    (change j active lastmod).2 = (j.isActive != active) := by
  cases active <;> simp [change, jupeActivate, jupeDeactivate]

theorem change_newer {j : Jupe} {active : Bool} {lastmod : Int} (newer : j.lastmod < lastmod) :
    (change j active lastmod).1.Is active lastmod := by
  have is := change_is j active lastmod
  rwa [max_eq_right (by omega)] at is

theorem atoi_msg {j : Jupe} {active : Bool} {lastmod : Int} (is : j.Is active lastmod) (past : 0 ≤ lastmod)
    (int : lastmod < 2 ^ 31) : j.msg.active = active ∧ atoi j.msg.lastmod = lastmod := by
  obtain ⟨rfl, rfl⟩ := is
  refine ⟨rfl, ?_⟩
  change atoi (Nat.toDigits 10 j.lastmod.toNat) = j.lastmod
  rw [atoi_digits, asInt]
  split <;> omega

def Msg.Tells (m : Msg) (active : Bool) (lastmod : Int) : Prop := m.active = active ∧ atoi m.lastmod = lastmod

section
variable {j : Jupe} {m : Msg} {active active' : Bool} {lastmod lastmod' : Int}

theorem msJupe_newer (is : j.Is active lastmod) (told : m.Tells active' lastmod') (newer : lastmod < lastmod') :
    (msJupe j m).1.Is active' lastmod' ∧ (msJupe j m).2 = [] := by
  obtain ⟨-, rfl⟩ := is
  obtain ⟨rfl, rfl⟩ := told
  rw [msJupe, if_pos newer]
  exact ⟨change_newer newer, rfl⟩

theorem msJupe_same (is : j.Is active lastmod) (told : m.Tells active' lastmod) : msJupe j m = (j, []) := by
  obtain ⟨-, rfl⟩ := is
  rw [msJupe, told.2, if_neg (lt_irrefl _), if_pos rfl]

theorem msJupe_older (is : j.Is active lastmod) (told : m.Tells active' lastmod') (older : lastmod' < lastmod) :
    msJupe j m = (j, [j.msg]) := by
  obtain ⟨-, rfl⟩ := is
  rw [msJupe, told.2, if_neg (not_lt.mpr older.le), if_neg (ne_of_gt older)]

end

structure Made where
  active : Bool → Bool
  lastmod : Bool → Int
  past : ∀ side, 0 ≤ lastmod side
  int : ∀ side, lastmod side < 2 ^ 31

/-- In the middle of an exchange: `side` has changed the jupe at no later time than the other. It
keeps its own jupe until it takes that of the other side. -/
structure Racing (made : Made) (side : Bool) (net : Net) : Prop where
  newer : (net.jupe !side).Is (made.active !side) (made.lastmod !side)
  older : (net.jupe side).Is (made.active side) (made.lastmod side) ∨
    made.lastmod side < made.lastmod (!side) ∧ (net.jupe side).Is (made.active !side) (made.lastmod !side)
  to_older : ∀ m ∈ net.inbox side, m.Tells (made.active !side) (made.lastmod !side)
  to_newer : ∀ m ∈ net.inbox (!side), m.Tells (made.active side) (made.lastmod side)

def Underway (made : Made) (side : Bool) (net : Net) : Prop :=
  (net.jupe side).Is (made.active !side) (made.lastmod !side) ∨ net.inbox side ≠ [] ∨ net.inbox (!side) ≠ []

def weight (side : Bool) (net : Net) : Nat := (net.inbox side).length + 2 * (net.inbox !side).length

section
variable {made : Made} {side : Bool} {net net' : Net}

theorem bool_cases (side other : Bool) : other = side ∨ other = !side := by
  cases side <;> cases other <;> simp

theorem Racing.step (racing : Racing made side net) (order : made.lastmod side ≤ made.lastmod !side)
    (step : Step net net') :
    Racing made side net' ∧ weight side net' < weight side net ∧
      (made.lastmod side < made.lastmod (!side) → Underway made side net') := by
  have apart : side ≠ !side := by cases side <;> simp
  obtain ⟨newer, older, to_older, to_newer⟩ := racing
  obtain ⟨at_side, m, rest, first⟩ := step
  rcases bool_cases side at_side with rfl | rfl
  · -- a message of the newer side arrives
    have told := to_older m (first ▸ List.mem_cons_self)
    have later : ∀ m' ∈ rest, m'.Tells (made.active !at_side) (made.lastmod !at_side) :=
      fun m' mem => to_older m' (first ▸ List.mem_cons_of_mem m mem)
    have answer : (msJupe (net.jupe at_side) m).2 = [] := by
      rcases older with own | ⟨strict, taken⟩
      · rcases lt_or_eq_of_le order with strict | same
        · exact (msJupe_newer own told strict).2
        · rw [same] at own
          rw [msJupe_same own told]
      · rw [msJupe_same taken told]
    have now : (msJupe (net.jupe at_side) m).1.Is (made.active at_side) (made.lastmod at_side) ∧
          ¬ made.lastmod at_side < made.lastmod (!at_side) ∨
        made.lastmod at_side < made.lastmod (!at_side) ∧
          (msJupe (net.jupe at_side) m).1.Is (made.active !at_side) (made.lastmod !at_side) := by
      rcases older with own | ⟨strict, taken⟩
      · rcases lt_or_eq_of_le order with strict | same
        · exact .inr ⟨strict, (msJupe_newer own told strict).1⟩
        · refine .inl ⟨?_, by omega⟩
          have own' := own
          rw [same] at own'
          rw [msJupe_same own' told]
          exact own
      · rw [msJupe_same taken told]
        exact .inr ⟨strict, taken⟩
    refine ⟨⟨?_, ?_, ?_, ?_⟩, ?_, ?_⟩
    · simpa [Function.update_of_ne apart.symm] using newer
    · simp only [Function.update_self]
      exact now.imp And.left id
    · simpa [Function.update_of_ne apart] using later
    · simpa [answer] using to_newer
    · simp [weight, answer, first]
    · intro strict
      left
      simp only [Function.update_self]
      rcases now with ⟨-, equal⟩ | ⟨-, taken⟩
      · exact absurd strict equal
      · exact taken
  · -- a message of the older side arrives
    have told := to_newer m (first ▸ List.mem_cons_self)
    have later : ∀ m' ∈ rest, m'.Tells (made.active side) (made.lastmod side) :=
      fun m' mem => to_newer m' (first ▸ List.mem_cons_of_mem m mem)
    have keeps : (msJupe (net.jupe !side) m).1 = net.jupe !side := by
      rcases lt_or_eq_of_le order with strict | same
      · rw [msJupe_older newer told strict]
      · rw [same] at told
        rw [msJupe_same newer told]
    have answer : ∀ m' ∈ (msJupe (net.jupe !side) m).2, m'.Tells (made.active !side) (made.lastmod !side) := by
      intro m' mem
      rcases lt_or_eq_of_le order with strict | same
      · rw [msJupe_older newer told strict] at mem
        rw [List.mem_singleton.mp mem]
        exact atoi_msg newer (made.past _) (made.int _)
      · rw [same] at told
        rw [msJupe_same newer told] at mem
        cases mem
    have short : (msJupe (net.jupe !side) m).2.length ≤ 1 := by
      rcases lt_or_eq_of_le order with strict | same
      · rw [msJupe_older newer told strict]
        exact Nat.le_refl 1
      · rw [same] at told
        rw [msJupe_same newer told]
        exact Nat.zero_le 1
    refine ⟨⟨?_, ?_, ?_, ?_⟩, ?_, ?_⟩
    · simp only [Function.update_self, keeps]
      exact newer
    · simpa [Function.update_of_ne apart] using older
    · simp only [Bool.not_not, Function.update_self, List.mem_append]
      rintro m' (mem | mem)
      · exact to_older m' mem
      · exact answer m' mem
    · simpa [Function.update_of_ne apart.symm] using later
    · simp only [weight, Bool.not_not, Function.update_self, Function.update_of_ne apart.symm, List.length_append,
        first, List.length_cons]
      omega
    · intro strict
      right
      left
      simp [msJupe_older newer told strict]

theorem Racing.run (racing : Racing made side net) (order : made.lastmod side ≤ made.lastmod !side)
    (run : Relation.ReflTransGen Step net net') : Racing made side net' := by
  induction run with
  | refl => exact racing
  | tail _ step ih => exact (ih.step order step).1

theorem Underway.run (underway : Underway made side net) (racing : Racing made side net)
    (strict : made.lastmod side < made.lastmod !side) (run : Relation.ReflTransGen Step net net') :
    Underway made side net' := by
  induction run with
  | refl => exact underway
  | tail before step _ => exact ((racing.run strict.le before).step strict.le step).2.2 strict

theorem Racing.ends (racing : Racing made side net) (order : made.lastmod side ≤ made.lastmod !side) :
    Acc (fun after before => Step before after) net := by
  induction size : weight side net using Nat.strong_induction_on generalizing net with
  | _ n ih =>
    subst size
    constructor
    intro net' step
    obtain ⟨racing', less, -⟩ := racing.step order step
    exact ih _ less racing' rfl

end

theorem exists_quiet {net : Net} (ends : Acc (fun after before => Step before after) net) :
    ∃ net', Relation.ReflTransGen Step net net' ∧ Quiet net' := by
  induction ends with
  | intro net _ ih =>
    by_cases quiet : Quiet net
    · exact ⟨net, .refl, quiet⟩
    · simp only [Quiet, not_forall] at quiet
      obtain ⟨side, some_message⟩ := quiet
      obtain ⟨m, rest, first⟩ := List.exists_cons_of_ne_nil some_message
      obtain ⟨net', run, quiet'⟩ := ih _ (.deliver side m rest first)
      exact ⟨net', .head (.deliver side m rest first) run, quiet'⟩

def lastmodAfter (lastmod : Int) (c : Change) : Int := max (lastmod + 1) c.time

/-- The changes ask for the same, or one of them is announced and they leave different times. -/
def Compatible (held : Bool → Jupe) (lastmod : Int) (changes : Bool → Change) : Prop :=
  (changes false).active = (changes true).active ∨
    lastmodAfter lastmod (changes false) ≠ lastmodAfter lastmod (changes true) ∧
      ∃ side, (held side).isActive ≠ (changes side).active

def madeBy {lastmod : Int} {changes : Bool → Change} (timely : Timely lastmod changes) : Made where
  active side := (changes side).active
  lastmod side := lastmodAfter lastmod (changes side)
  past side := by
    have := timely.past
    unfold lastmodAfter
    omega
  int side := by
    have := timely.lastmod_int
    have := timely.time_int side
    unfold lastmodAfter
    omega

section
variable {held : Bool → Jupe} {active : Bool} {lastmod : Int} {changes : Bool → Change}

theorem crossing_racing (same : ∀ side, (held side).Is active lastmod) (timely : Timely lastmod changes) (side : Bool) :
    Racing (madeBy timely) side (crossing held changes) := by
  have made : ∀ side, ((crossing held changes).jupe side).Is ((madeBy timely).active side) ((madeBy timely).lastmod side) := by
    intro side
    have is := change_is (held side) (changes side).active (changes side).time
    rw [(same side).2] at is
    exact is
  have sent : ∀ side, ∀ m ∈ (crossing held changes).inbox side,
      m.Tells ((madeBy timely).active !side) ((madeBy timely).lastmod !side) := by
    intro side m mem
    simp only [crossing] at mem
    split at mem
    · rw [List.mem_singleton.mp mem]
      exact atoi_msg (made !side) ((madeBy timely).past _) ((madeBy timely).int _)
    · cases mem
  refine ⟨made !side, .inl (made side), sent side, ?_⟩
  have back := sent !side
  rw [Bool.not_not] at back
  exact back

theorem crossing_inbox (held : Bool → Jupe) (changes : Bool → Change) (side : Bool) :
    (crossing held changes).inbox side ≠ [] ↔ (held !side).isActive ≠ (changes !side).active := by
  simp only [crossing, change_announced]
  cases announced : (held !side).isActive != (changes !side).active with
  | true => simpa using announced
  | false => simpa using announced

end

/-- Two changes of a jupe that cross come to the same end on both sides if and only if they ask for
the same, or leave different times while at least one is announced. -/
theorem crossing_converges (held : Bool → Jupe) (active : Bool) (lastmod : Int) (changes : Bool → Change)
    (same : ∀ side, (held side).Is active lastmod) (timely : Timely lastmod changes) :
    Converges (crossing held changes) ↔ Compatible held lastmod changes := by
  obtain ⟨side, order⟩ : ∃ side, (madeBy timely).lastmod side ≤ (madeBy timely).lastmod !side := by
    rcases le_total ((madeBy timely).lastmod false) ((madeBy timely).lastmod true) with le | le
    · exact ⟨false, le⟩
    · exact ⟨true, le⟩
  have racing := crossing_racing same timely side
  have ends := racing.ends order
  have agree_iff : ∀ net : Net, (net.jupe false).active = (net.jupe true).active ↔
      (net.jupe side).active = (net.jupe !side).active := by
    intro net
    cases side with
    | false => rfl
    | true => exact eq_comm
  have senses_iff : (changes false).active = (changes true).active ↔ (changes side).active = (changes !side).active := by
    cases side with
    | false => rfl
    | true => exact eq_comm
  have times_iff : lastmodAfter lastmod (changes false) ≠ lastmodAfter lastmod (changes true) ↔
      (madeBy timely).lastmod side < (madeBy timely).lastmod !side := by
    have strict := lt_iff_le_and_ne (a := (madeBy timely).lastmod side) (b := (madeBy timely).lastmod !side)
    rw [strict]
    cases side with
    | false => exact ⟨fun differ => ⟨order, differ⟩, And.right⟩
    | true => exact ⟨fun differ => ⟨order, Ne.symm differ⟩, fun both => Ne.symm both.2⟩
  constructor
  · rintro ⟨-, agrees⟩
    by_contra clash
    simp only [Compatible, senses_iff, times_iff, not_or, not_and_or, not_exists, not_not] at clash
    obtain ⟨senses, never⟩ := clash
    obtain ⟨net', run, quiet⟩ := exists_quiet ends
    have agree := (agree_iff net').mp (agrees net' run quiet)
    have racing' := racing.run order run
    have kept : (net'.jupe side).Is ((madeBy timely).active side) ((madeBy timely).lastmod side) := by
      rcases never with equal | silent
      · rcases racing'.older with own | ⟨strict, -⟩
        · exact own
        · exact absurd strict equal
      · have start_quiet : Quiet (crossing held changes) := by
          intro at_side
          by_contra pending
          exact (crossing_inbox held changes at_side).mp pending (silent !at_side)
        rcases run.cases_head with rfl | ⟨mid, first, -⟩
        · rcases racing.older with own | ⟨strict, taken⟩
          · exact own
          · have start := crossing_racing same timely !side
            rw [← Bool.not_not side]
            exact start.newer
        · obtain ⟨at_side, m, rest, first⟩ := first
          rw [start_quiet at_side] at first
          cases first
    rw [kept.1, racing'.newer.1] at agree
    exact senses agree
  · intro compatible
    refine ⟨ends, fun net' run quiet => (agree_iff net').mpr ?_⟩
    have racing' := racing.run order run
    rw [racing'.newer.1]
    rcases compatible with senses | ⟨times, announced⟩
    · rcases racing'.older with own | ⟨-, taken⟩
      · exact own.1.trans (senses_iff.mp senses)
      · exact taken.1
    · have strict := times_iff.mp times
      have start : Underway (madeBy timely) side (crossing held changes) := by
        obtain ⟨sender, differs⟩ := announced
        have pending := (crossing_inbox held changes !sender).mpr (by rwa [Bool.not_not])
        rcases bool_cases side !sender with here | there
        · rw [here] at pending
          exact .inr (.inl pending)
        · rw [there] at pending
          exact .inr (.inr pending)
      rcases start.run racing strict run with taken | pending | pending
      · exact taken.1
      · exact absurd (quiet side) pending
      · exact absurd (quiet !side) pending

def opposed (on off : Int) (side : Bool) : Change := if side then ⟨false, off⟩ else ⟨true, on⟩

def activeAt (lastmod : Int) (_ : Bool) : Jupe := ⟨true, false, lastmod⟩

theorem crossing_converges_later : Converges (crossing (activeAt 10) (opposed 5 20)) := by
  apply (crossing_converges (activeAt 10) true 10 (opposed 5 20) (fun _ => ⟨rfl, rfl⟩) ⟨by decide, by decide, ?_⟩).mpr
  · exact .inr ⟨by decide, true, by decide⟩
  · intro side
    cases side <;> decide

/-- Both clocks are behind the jupe: both changes leave the same time, and each side keeps its own. -/
theorem jupes_diverge : (opposed 5 6 false).time ≠ (opposed 5 6 true).time ∧
    ¬ Converges (crossing (activeAt 10) (opposed 5 6)) := by
  refine ⟨by decide, fun ⟨_, agrees⟩ => ?_⟩
  have first : (crossing (activeAt 10) (opposed 5 6)).inbox false = [⟨false, ['1', '1']⟩] := by decide
  have told : Msg.Tells ⟨false, ['1', '1']⟩ false 11 := ⟨rfl, by decide⟩
  have dropped := msJupe_same (j := (crossing (activeAt 10) (opposed 5 6)).jupe false) ⟨rfl, rfl⟩ told
  have agree := agrees _ (.single (.deliver false _ [] first)) ?_
  · simp only [dropped, Function.update_self] at agree
    exact absurd agree (by decide)
  · intro side
    cases side with
    | false => rfl
    | true =>
      rw [dropped]
      rfl

end Ircd.Jupes
