import Ircd.Users.NickRegister
import Mathlib.Data.List.Induction

/-! What the records of the nick table and of the operators table come to: the privileges an operator
gets, the modes a user gets, and what is left of both when the records go.
-/

set_option autoImplicit false

namespace Ircd.Users

section
variable (u : RegUser) (f g : Flag) (value : Bool)

@[simp] theorem put_same : (u.put f value).flags f = value := Function.update_self ..

theorem put_other {f g : Flag} (other : g ≠ f) : (u.put f value).flags g = u.flags g := Function.update_of_ne other ..

@[simp] theorem put_privs : (u.put f value).privs = u.privs := rfl

end

theorem put_if_other (u : RegUser) {b : Bool} {f g : Flag} (other : g ≠ f) :
    (if b then u.put f false else u).flags g = u.flags g := by
  cases b with
  | false => rfl
  | true => exact put_other u false other

@[simp] theorem setSnomask_flags (u : RegUser) (newmask : UInt32) : (u.setSnomask newmask).flags = u.flags := rfl

theorem snotices_if_other (u : RegUser) {b : Bool} {g : Flag} (other : g ≠ .servNotice) :
    (if b then (u.put .servNotice false).setSnomask 0 else u).flags g = u.flags g := by
  cases b with
  | false => rfl
  | true => exact put_other u false other

theorem clear_flags (u : RegUser) (fs : List Flag) (g : Flag) :
    (u.clear fs).flags g = if g ∈ fs then false else u.flags g := by
  induction fs generalizing u with
  | nil => rfl
  | cons f fs ih =>
    rw [RegUser.clear, List.foldl_cons]
    refine (ih (u.put f false)).trans ?_
    by_cases here : g = f
    · subst here
      simp
    · simp [here, put_other]

@[simp] theorem clear_privs (u : RegUser) (fs : List Flag) : (u.clear fs).privs = u.privs := by
  induction fs generalizing u with
  | nil => rfl
  | cons f fs ih => exact ih (u.put f false)

/-- The privileges that an operator who does not propagate cannot have. -/
def desynching : List Priv := [.kill, .gline, .jupe, .opmode, .badchan]

/-- The privileges are those of the mask, and what propagating or not propagating makes of them. -/
def PrivsAsWritten (mask : UInt64) (u : RegUser) : Prop :=
  ∀ priv, u.privs priv = true ↔
    (maskPrivs mask priv = true ∨ priv = .display ∧ maskPrivs mask .propagate = true) ∧
    (maskPrivs mask .propagate = true ∨ priv ∉ desynching)

structure OperRead where
  key : List Char
  content : OperFields
  cache : Bool

def lastRead (history : List OperRead) : Option DdbOperator :=
  history.foldl (fun ddboptr call => some (ddbOpersGet ddboptr call.key call.content call.cache)) none

theorem maskPrivs_zero (priv : Priv) : maskPrivs 0 priv = false := by
  cases priv <;> rfl

theorem ddbOpersGet_bare {ddboptr : Option DdbOperator} (bare : ∀ last ∈ ddboptr, last.privs = maskPrivs 0)
    (call : OperRead) : (ddbOpersGet ddboptr call.key call.content call.cache).privs = maskPrivs 0 := by
  unfold ddbOpersGet
  cases ddboptr with
  | none => rfl
  | some last =>
    dsimp only
    split
    · exact bare last rfl
    · rfl

theorem lastRead_bare (history : List OperRead) : ∀ last ∈ lastRead history, last.privs = maskPrivs 0 := by
  induction history using List.reverseRecOn with
  | nil => exact nofun
  | append_singleton history call ih =>
    intro last read
    rw [lastRead, List.foldl_append] at read
    obtain rfl := Option.some.inj read
    exact ddbOpersGet_bare ih call

theorem grant_privs {u : RegUser} (privs : Priv → Bool) (oper : (u.grant privs).isAnOper = true) :
    (u.grant privs).privs = settlePrivs privs := by
  unfold RegUser.grant at oper ⊢
  by_cases already : u.isAnOper = true
  · rw [if_pos already]
  · rw [if_neg already] at oper
    exact absurd oper already

theorem settlePrivs_zero : settlePrivs (maskPrivs 0) = fun _ => false := by
  funext priv
  rw [settlePrivs, maskPrivs_zero, if_neg Bool.false_ne_true, maskPrivs_zero, Bool.false_and]

/-- An operator has no privileges from its record, whatever records were read before: this is what
the mask says only if all that it has of the table does not come without propagating. -/
theorem record_privs (history : List OperRead) (call : OperRead) (st : Tallied)
    (made : (nickregSetModeprivs st (ddbOpersGet (lastRead history) call.key call.content call.cache)).user.isAnOper = true) :
    PrivsAsWritten (call.content.privs.getD 0)
        (nickregSetModeprivs st (ddbOpersGet (lastRead history) call.key call.content call.cache)).user ↔
      ∀ priv, maskPrivs (call.content.privs.getD 0) priv = true → priv ∈ desynching := by
  have bare := ddbOpersGet_bare (lastRead_bare history) call
  have none_held := grant_privs _ made
  rw [bare, settlePrivs_zero] at none_held
  generalize call.content.privs.getD 0 = mask
  unfold PrivsAsWritten nickregSetModeprivs
  dsimp only
  simp only [bare, none_held, Bool.false_eq_true, false_iff, not_and, not_or, not_not]
  constructor
  · intro nothing priv set
    exact (nothing priv (.inl set)).2
  · intro only priv set
    have not_propagating : maskPrivs mask .propagate = false := by
      by_contra propagating
      exact absurd (only .propagate (Bool.not_eq_false _ ▸ propagating)) (by decide)
    rcases set with set | ⟨-, propagating⟩
    · exact ⟨Bool.not_eq_true _ ▸ not_propagating, only priv set⟩
    · rw [not_propagating] at propagating
      contradiction

/-- A new operator with the privilege to kill on its server. -/
theorem record_privs_local_kill :
    (nickregSetModeprivs ⟨⟨fun _ => false, fun _ => false, false, 0⟩, 0⟩
      (ddbOpersGet (lastRead []) ['n'] ⟨some ['o'], some 0x100⟩ false)).user.isAnOper = true ∧
    (PrivsAsWritten 0x100 (nickregSetModeprivs ⟨⟨fun _ => false, fun _ => false, false, 0⟩, 0⟩
      (ddbOpersGet (lastRead []) ['n'] ⟨some ['o'], some 0x100⟩ false)).user ↔
      ∀ priv, maskPrivs 0x100 priv = true → priv ∈ desynching) :=
  ⟨by decide, record_privs [] ⟨['n'], ⟨some ['o'], some 0x100⟩, false⟩ ⟨⟨fun _ => false, fun _ => false, false, 0⟩, 0⟩
    (by decide)⟩

/-- The operator does not get it. -/
theorem local_kill_lost : ¬ PrivsAsWritten 0x100 (nickregSetModeprivs ⟨⟨fun _ => false, fun _ => false, false, 0⟩, 0⟩
    (ddbOpersGet none ['n'] ⟨some ['o'], some 0x100⟩ false)).user := by
  intro written
  have held := (written .localKill).mpr (by decide)
  exact absurd held (by decide)

def lastSign (letter : Char) : Bool → List Char → Option Bool
  | _, [] => none
  | add, c :: modes =>
    if c = '+' then lastSign letter true modes
    else if c = '-' then lastSign letter false modes
    else (lastSign letter add modes).orElse fun _ => if c = letter then some add else none

/-- The user is suspended if the record says so, and has the modes of the record if it does not. -/
def AsRecorded (ddbnick : DdbNick) (u : RegUser) : Prop :=
  (u.flags (.mode .nickSuspend) = true ↔ ddbnick.flags &&& ddbNickSuspend ≠ 0) ∧
  (ddbnick.flags &&& ddbNickSuspend = 0 → u.flags (.mode .account) = true ∧
    ∀ entry ∈ userModes, entry.2 ∉ ignoredModes →
      ∀ add, lastSign entry.2 true ((ddbnick.automodes.getD []).takeWhile fun c => !isBlank c) = some add →
        u.flags entry.1 = add)

theorem lnot_suspend (flags : UInt32) : lnot flags &&& ddbNickSuspend = 0 := by
  unfold lnot
  split <;> rfl

theorem nickregSetModes_suspends (u : RegUser) (ddbnptr : DdbNick) :
    nickregSetModes u ddbnptr = u.put (.mode .nickSuspend) true := by
  rw [nickregSetModes, lnot_suspend, if_neg (fun nonzero => nonzero rfl)]

theorem update_suspends (features : OperOnly) (st : Tallied) {ddbnick : DdbNick}
    (allowed : ddbnick.flags &&& ddbNickForbid = 0) :
    (eventNicks features st (some ddbnick) true).1.user.flags (.mode .nickSuspend) = true := by
  unfold eventNicks
  dsimp only
  rw [if_neg (not_not_intro allowed), lnot_suspend]
  split
  · exact put_same ..
  · rw [if_neg (fun both => both.1 rfl), if_neg (by decide), nickregSetModes_suspends]
    exact put_same ..

/-- The update of a record leaves the user as the record says if and only if the record suspends it. -/
theorem update_as_recorded (features : OperOnly) (st : Tallied) (ddbnick : DdbNick)
    (allowed : ddbnick.flags &&& ddbNickForbid = 0) :
    AsRecorded ddbnick (eventNicks features st (some ddbnick) true).1.user ↔ ddbnick.flags &&& ddbNickSuspend ≠ 0 := by
  have suspended := update_suspends features st allowed
  constructor
  · exact fun recorded => recorded.1.mp suspended
  · exact fun suspends => ⟨iff_of_true suspended suspends, fun none_set => absurd none_set suspends⟩

theorem update_as_recorded_suspension :
    (2 : UInt32) &&& ddbNickForbid = 0 ∧
    (AsRecorded ⟨2, none⟩ (eventNicks ⟨true, true, true⟩ ⟨⟨fun _ => false, fun _ => false, false, 0⟩, 0⟩ (some ⟨2, none⟩) true).1.user ↔
      (2 : UInt32) &&& ddbNickSuspend ≠ 0) :=
  ⟨by decide, update_as_recorded ⟨true, true, true⟩ ⟨⟨fun _ => false, fun _ => false, false, 0⟩, 0⟩ ⟨2, none⟩ (by decide)⟩

/-- A user with a good record is suspended when the record is updated. -/
theorem good_record_suspends : ¬ AsRecorded ⟨0, some ['+', 'i']⟩
    (eventNicks ⟨true, true, true⟩ ⟨⟨fun f => f = .mode .account, fun _ => false, false, 0⟩, 0⟩
      (some ⟨0, some ['+', 'i']⟩) true).1.user := by
  intro recorded
  exact absurd (recorded.1.mp (by decide)) (by decide)

/-- Neither an operator nor a local operator, and without the privileges. -/
structure Revoked (granted : Priv → Bool) (u : RegUser) : Prop where
  oper : u.flags (.mode .oper) = false
  locop : u.flags .locop = false
  privs : ∀ priv, granted priv = true → u.privs priv = false

structure Suspension where
  record : DdbNick
  suspends : record.flags &&& ddbNickSuspend ≠ 0
  allowed : record.flags &&& ddbNickForbid = 0

/-- What ends the rights of an operator: its record is deleted, or that of its nick is deleted or suspended. -/
inductive Revocation where
  | operatorDeleted (ddboptr : Option DdbOperator) (key : List Char)
  | nickDropped (update : Bool)
  | nickSuspended (suspension : Suspension) (update : Bool)

def Revocation.run (features : OperOnly) (st : Tallied) : Revocation → Tallied
  | .operatorDeleted ddboptr key => eventOperators features st ddboptr key none
  | .nickDropped update => (eventNicks features st none update).1
  | .nickSuspended suspension update => (eventNicks features st (some suspension.record) update).1

/-- Whether the handler of the event gets to `nickreg_clear_modeprivs`. -/
def Revocation.reaches (u : RegUser) : Revocation → Bool
  | .operatorDeleted _ _ =>
    u.flags (.mode .admin) || u.flags (.mode .coder) || u.flags (.mode .helper) || u.flags (.mode .servicesBot)
  | .nickDropped _ => u.flags (.mode .account) || u.flags (.mode .nickSuspend)
  | .nickSuspended _ update => update && u.flags (.mode .account)

structure SameRights (u u' : RegUser) : Prop where
  oper : u'.flags (.mode .oper) = u.flags (.mode .oper)
  locop : u'.flags .locop = u.flags .locop
  privs : u'.privs = u.privs

structure ClearedRights (u u' : RegUser) : Prop where
  oper : u'.flags (.mode .oper) = u.flags (.mode .oper)
  locop : u'.flags .locop = false
  privs : ∀ priv, u'.privs priv = false

theorem nickregClearModeprivs_spec (features : OperOnly) {st : Tallied} (table : st.user.flags .operByCmd = false) :
    ClearedRights st.user (nickregClearModeprivs features st).user := by
  have still_table : (st.user.clear [.mode .admin, .mode .coder, .mode .helper, .mode .servicesBot]).flags .operByCmd =
      false := by rw [clear_flags, if_neg (by decide), table]
  unfold nickregClearModeprivs
  dsimp only
  rw [still_table, if_pos (by rfl)]
  refine ⟨?_, ?_, fun priv => rfl⟩
  · dsimp only
    rw [snotices_if_other _ (by decide), put_if_other _ (by decide), put_if_other _ (by decide),
      put_other _ _ (by decide), clear_flags, if_neg (by decide)]
  · dsimp only
    rw [snotices_if_other _ (by decide), put_if_other _ (by decide), put_if_other _ (by decide), put_same]

theorem nickregClearMode_same (u : RegUser) : SameRights u (nickregClearMode u) := by
  constructor
  · rw [nickregClearMode, clear_flags, if_neg (by decide)]
  · rw [nickregClearMode, clear_flags, if_neg (by decide)]
  · exact clear_privs u _

theorem ClearedRights.trans {u u' u'' : RegUser} (cleared : ClearedRights u u') (same : SameRights u' u'') :
    ClearedRights u u'' where
  oper := same.oper.trans cleared.oper
  locop := same.locop.trans cleared.locop
  privs := fun priv => (congrFun same.privs priv).trans (cleared.privs priv)

theorem put_suspend_same (u : RegUser) (value : Bool) : SameRights u (u.put (.mode .nickSuspend) value) :=
  ⟨put_other _ _ (by decide), put_other _ _ (by decide), rfl⟩

theorem run_reaches (features : OperOnly) {st : Tallied} (table : st.user.flags .operByCmd = false)
    {event : Revocation} (reaches : event.reaches st.user = true) : ClearedRights st.user (event.run features st).user := by
  have cleared := nickregClearModeprivs_spec features table
  cases event with
  | operatorDeleted ddboptr key =>
    rw [Revocation.reaches] at reaches
    unfold Revocation.run eventOperators
    dsimp only
    rw [if_pos reaches]
    exact cleared
  | nickDropped update =>
    rw [Revocation.reaches] at reaches
    unfold Revocation.run eventNicks
    dsimp only
    rw [if_pos reaches]
    exact cleared.trans (nickregClearMode_same _)
  | nickSuspended suspension update =>
    obtain ⟨rfl, account⟩ := Bool.and_eq_true_iff.mp reaches
    unfold Revocation.run eventNicks
    dsimp only
    rw [if_neg (not_not_intro suspension.allowed), if_pos ⟨suspension.suspends, rfl, account⟩]
    exact (cleared.trans (nickregClearMode_same _)).trans (put_suspend_same _ true)

theorem run_misses (features : OperOnly) (st : Tallied) {event : Revocation} (misses : event.reaches st.user = false) :
    SameRights st.user (event.run features st).user := by
  have unchanged : SameRights st.user st.user := ⟨rfl, rfl, rfl⟩
  cases event with
  | operatorDeleted ddboptr key =>
    rw [Revocation.reaches] at misses
    unfold Revocation.run eventOperators
    dsimp only
    rw [if_neg (fun reaches => Bool.false_ne_true (misses.symm.trans reaches))]
    exact unchanged
  | nickDropped update =>
    rw [Revocation.reaches] at misses
    unfold Revocation.run eventNicks
    dsimp only
    rw [if_neg (fun reaches => Bool.false_ne_true (misses.symm.trans reaches))]
    exact unchanged
  | nickSuspended suspension update =>
    unfold Revocation.run eventNicks
    dsimp only
    rw [if_neg (not_not_intro suspension.allowed), if_neg, if_neg (fun both => both.1 (lnot_suspend _))]
    · cases update with
      | false => exact unchanged
      | true =>
        rw [if_neg (by decide), nickregSetModes_suspends]
        exact put_suspend_same _ true
    · rintro ⟨-, updates, account⟩
      rw [Revocation.reaches, updates, account] at misses
      contradiction

/-- A user whom only the table made an operator is rid of it if and only if it was not a global operator
and the handler of the event did not pass it by, unless there was nothing to take. -/
theorem revoked_iff (features : OperOnly) (st : Tallied) (table : st.user.flags .operByCmd = false) (event : Revocation)
    (granted : Priv → Bool) :
    Revoked granted (event.run features st).user ↔
      st.user.flags (.mode .oper) = false ∧
        (event.reaches st.user = true ∨
          st.user.flags .locop = false ∧ ∀ priv, granted priv = true → st.user.privs priv = false) := by
  cases reaches : event.reaches st.user with
  | true =>
    have cleared := run_reaches features table reaches
    constructor
    · exact fun revoked => ⟨cleared.oper.symm.trans revoked.oper, .inl rfl⟩
    · exact fun plain => ⟨cleared.oper.trans plain.1, cleared.locop, fun priv _ => cleared.privs priv⟩
  | false =>
    have same := run_misses features st reaches
    constructor
    · rintro ⟨oper, locop, privs⟩
      rw [same.oper] at oper
      rw [same.locop] at locop
      rw [same.privs] at privs
      exact ⟨oper, .inr ⟨locop, privs⟩⟩
    · rintro ⟨oper, passed | ⟨locop, privs⟩⟩
      · contradiction
      · exact ⟨same.oper.trans oper, same.locop.trans locop, by rw [same.privs]; exact privs⟩

/-- A helper whom its record made a local operator, and whose record is deleted. -/
theorem revoked_helper :
    (fun f => decide (f = .mode .helper ∨ f = .locop) : Flag → Bool) .operByCmd = false ∧
    (Revoked (fun _ => true) ((Revocation.operatorDeleted none []).run ⟨true, true, true⟩
        ⟨⟨fun f => decide (f = .mode .helper ∨ f = .locop), fun _ => true, true, 0⟩, 0⟩).user ↔
      decide (Flag.mode .oper = .mode .helper ∨ Flag.mode .oper = .locop) = false ∧
        (Revocation.reaches ⟨fun f => decide (f = .mode .helper ∨ f = .locop), fun _ => true, true, 0⟩
            (.operatorDeleted none []) = true ∨
          decide (Flag.locop = .mode .helper ∨ Flag.locop = .locop) = false ∧
            ∀ priv : Priv, (fun _ => true : Priv → Bool) priv = true → (fun _ => true : Priv → Bool) priv = false)) :=
  ⟨by decide, revoked_iff ⟨true, true, true⟩ ⟨⟨fun f => decide (f = .mode .helper ∨ f = .locop), fun _ => true, true, 0⟩, 0⟩
    (by decide) (.operatorDeleted none []) fun _ => true⟩

/-- An operator of the table, and what the deletion of its record leaves. -/
theorem operator_stays : ¬ Revoked (fun _ => false)
    (eventOperators ⟨true, true, true⟩
      (eventOperators ⟨true, true, true⟩ ⟨⟨fun f => f = .mode .account, fun _ => false, false, 0⟩, 0⟩ none ['n']
        (some ⟨some ['+', 'o'], some 0x100⟩)) none ['n'] none).user := by
  intro revoked
  exact absurd revoked.oper (by decide)

end Ircd.Users
