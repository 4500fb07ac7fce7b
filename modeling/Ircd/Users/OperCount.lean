import Ircd.Users.NickRecords
import Ircd.Users.SetUserMode
import Mathlib.Algebra.BigOperators.Group.Finset.Piecewise

/-! `UserStats.opers`: the count of the operators, which mode changes, the records of the operators
table and their events keep for each user at a time.
-/

set_option autoImplicit false

namespace Ircd.Users

structure OperModes where
  oper : Bool
  locop : Bool
  deriving DecidableEq

def RegUser.operModes (u : RegUser) : OperModes := ⟨u.flags (.mode .oper), u.flags .locop⟩

inductive OperMode where
  | dropped
  | oper
  | locop

structure OperText where
  found : List OperMode
  text : ModeText

def OperText.asks (t : OperText) (mode : OperMode) : OperText :=
  { t with found := (if t.text.add then mode else .dropped) :: t.found }

def OperText.letter (t : OperText) (c : Char) : OperText :=
  if c = '+' then { t with text := { t.text with add := true } }
  else if c = '-' then { t with text := { t.text with add := false } }
  else if c = 's' then if isSnomask (t.text.next.headD []) then { t with text := t.text.skip } else t
  else if c = 'o' then t.asks .oper
  else if c = 'O' then t.asks .locop
  else t

def OperText.params : Nat → OperText → OperText
  | 0, t => t
  | left + 1, t =>
    match t.text.inside, t.text.next with
    | inside + 1, param :: next =>
      let t := { t with text := { t.text with next := next, inside := inside } }
      OperText.params left (param.foldl OperText.letter t)
    | _, _ => t

def operModesOf (params behind : List (List Char)) : List OperMode :=
  (OperText.params params.length ⟨[], true, params ++ behind, params.length⟩).found

def OperModes.behind (old : OperModes) : List OperMode → OperModes
  | [] => old
  | .dropped :: _ => ⟨false, false⟩
  | .oper :: found => { old.behind found with oper := true }
  | .locop :: found => { old.behind found with locop := true }

structure ModeLoop.Follows (old : OperModes) (st : ModeLoop) (t : OperText) : Prop where
  text : st.text = t.text
  modes : st.user.operModes = old.behind t.found

section
variable (u : RegUser)

theorem put_operModes {f : Flag} (not_oper : f ≠ .mode .oper) (not_locop : f ≠ .locop) (value : Bool) :
    (u.put f value).operModes = u.operModes := by
  unfold RegUser.operModes
  rw [put_other _ _ not_oper.symm, put_other _ _ not_locop.symm]

theorem put_oper_operModes (value : Bool) :
    (u.put (.mode .oper) value).operModes = { u.operModes with oper := value } := by
  unfold RegUser.operModes
  rw [put_same, put_other _ _ (by decide)]

theorem put_locop_operModes (value : Bool) :
    (u.put .locop value).operModes = { u.operModes with locop := value } := by
  unfold RegUser.operModes
  rw [put_same, put_other _ _ (by decide)]

theorem deop_operModes : (u.clear [.mode .oper, .locop]).operModes = ⟨false, false⟩ := by
  unfold RegUser.operModes
  rw [clear_flags, if_pos (by decide), clear_flags, if_pos (by decide)]

end

theorem simpleUmode_oper {c : Char} {f : UFlag} (letter : simpleUmode c = some f) (other : c ≠ 'o') :
    f ≠ .oper := by
  rintro rfl
  unfold simpleUmode at letter
  split at letter <;> simp_all

section
variable {old : OperModes} {st : ModeLoop} {t : OperText}

theorem put_follows (follows : st.Follows old t) {f : Flag} (not_oper : f ≠ .mode .oper) (not_locop : f ≠ .locop) :
    (st.put f).Follows old t :=
  ⟨follows.text, (put_operModes st.user not_oper not_locop _).trans follows.modes⟩

theorem notices_follows (follows : st.Follows old t) : st.notices.Follows old (t.letter 's') := by
  have letter : t.letter 's' =
      if isSnomask (t.text.next.headD []) then { t with text := t.text.skip } else t := rfl
  rw [letter]
  unfold ModeLoop.notices
  dsimp only
  rw [follows.text]
  split
  · exact ⟨rfl, (put_operModes _ (by decide) (by decide) _).trans follows.modes⟩
  · exact ⟨rfl, (put_operModes _ (by decide) (by decide) _).trans follows.modes⟩

theorem letter_follows (mine : Bool) (follows : st.Follows old t) (c : Char) :
    (st.letter mine c).Follows old (t.letter c) := by
  obtain ⟨text, modes⟩ := follows
  unfold ModeLoop.letter
  by_cases mask : c = 's'
  · subst mask
    rw [if_neg (by decide), if_neg (by decide), if_pos rfl]
    exact notices_follows ⟨text, modes⟩
  unfold OperText.letter
  by_cases plus : c = '+'
  · rw [if_pos plus, if_pos plus]
    exact ⟨by rw [text], modes⟩
  rw [if_neg plus, if_neg plus]
  by_cases minus : c = '-'
  · rw [if_pos minus, if_pos minus]
    exact ⟨by rw [text], modes⟩
  rw [if_neg minus, if_neg minus, if_neg mask, if_neg mask]
  have asks {f : Flag} {mode : OperMode} (given : (st.user.put f true).operModes = old.behind (mode :: t.found)) :
      (if st.text.add then st.put f else st.deop mine).Follows old (t.asks mode) := by
    unfold OperText.asks
    rw [← text]
    cases add : st.text.add with
    | true =>
      rw [if_pos rfl, if_pos rfl, ModeLoop.put, add]
      exact ⟨rfl, given⟩
    | false =>
      rw [if_neg Bool.false_ne_true, if_neg Bool.false_ne_true]
      exact ⟨rfl, deop_operModes st.user⟩
  by_cases oper : c = 'o'
  · rw [if_pos oper, if_pos oper]
    exact asks (by rw [put_oper_operModes, modes]; rfl)
  rw [if_neg oper, if_neg oper]
  by_cases locop : c = 'O'
  · rw [if_pos locop, if_pos locop]
    exact asks (by rw [put_locop_operModes, modes]; rfl)
  rw [if_neg locop, if_neg locop]
  split
  · split <;> exact ⟨text, modes⟩
  split
  · exact put_follows ⟨text, modes⟩ (by decide) (by decide)
  split
  next f letter =>
    have not_oper := simpleUmode_oper letter oper
    exact put_follows ⟨text, modes⟩ (fun same => not_oper (Flag.mode.inj same)) nofun
  next => exact ⟨text, modes⟩

theorem param_follows (mine : Bool) (param : List Char) (follows : st.Follows old t) :
    (param.foldl (ModeLoop.letter mine) st).Follows old (param.foldl OperText.letter t) := by
  induction param generalizing st t with
  | nil => exact follows
  | cons c param ih => exact ih (letter_follows mine follows c)

theorem params_follows (mine : Bool) (left : Nat) (follows : st.Follows old t) :
    (st.params mine left).Follows old (t.params left) := by
  induction left generalizing st t with
  | zero => exact follows
  | succ left ih =>
    obtain ⟨text, user, tmpmask, hide⟩ := st
    obtain ⟨found, text'⟩ := t
    obtain rfl : text = text' := follows.text
    obtain ⟨add, next, inside⟩ := text
    cases inside with
    | zero => exact follows
    | succ inside =>
      cases next with
      | nil => exact follows
      | cons param next => exact ih (param_follows mine param ⟨rfl, follows.modes⟩)

end

def OperModes.change (old : OperModes) (trusted : Bool) (params behind : List (List Char)) : OperModes :=
  let modes := old.behind (operModesOf params behind)
  if trusted then modes else ⟨modes.oper && old.oper, modes.locop && old.locop⟩

section
variable (old u : RegUser)

theorem allow_operModes {f : Flag} (not_oper : f ≠ .mode .oper) (not_locop : f ≠ .locop) (allowed : Bool) :
    (old.allow u f allowed).operModes = u.operModes := by
  unfold RegUser.allow RegUser.operModes
  split
  · rw [put_other _ _ not_oper.symm, put_other _ _ not_locop.symm]
  · rfl

theorem snotices_operModes (b : Bool) :
    (if b then (u.put .servNotice false).setSnomask 0 else u).operModes = u.operModes := by
  cases b with
  | false => rfl
  | true => exact @put_operModes u .servNotice (by decide) (by decide) false

theorem allow_oper_pair :
    (old.allow (old.allow u (.mode .oper) false) .locop false).operModes =
      ⟨u.flags (.mode .oper) && old.flags (.mode .oper), u.flags .locop && old.flags .locop⟩ := by
  unfold RegUser.allow RegUser.operModes
  cases oper : old.flags (.mode .oper) <;> cases locop : old.flags .locop <;>
    simp [put_other]

theorem rules_operModes (features : OperOnly) (mine : Bool) :
    (old.rules features mine u).operModes =
      ⟨u.flags (.mode .oper) && old.flags (.mode .oper), u.flags .locop && old.flags .locop⟩ := by
  unfold RegUser.rules
  dsimp only [List.foldl_cons, List.foldl_nil]
  -- only the first two rules are about the two modes
  simp (disch := decide) only [allow_operModes, put_operModes, snotices_operModes]
  exact allow_oper_pair old u

theorem connected_operModes (tmpmask : UInt32) : (old.connected u tmpmask).operModes = u.operModes := by
  unfold RegUser.connected
  dsimp only
  split <;> split
  · split <;> rfl
  · rfl
  · split <;> rfl
  · rfl

theorem connected_if_operModes (mine : Bool) (tmpmask : UInt32) :
    (if mine then old.connected u tmpmask else u).operModes = u.operModes := by
  cases mine with
  | false => rfl
  | true => exact connected_operModes old u tmpmask

end

theorem changed_operModes (features : ModeFeatures) (trusted : Bool) (client : ModeClient)
    (params behind : List (List Char)) :
    (client.changed features trusted params behind).operModes =
      client.user.operModes.change trusted params behind := by
  unfold ModeClient.changed
  dsimp only
  set st := ModeLoop.params client.mine params.length
    ⟨⟨true, params ++ behind, params.length⟩, client.user, if client.mine then client.user.snomask else 0, false⟩
    with loop
  have scanned : st.user.operModes = client.user.operModes.behind (operModesOf params behind) := by
    rw [loop]
    exact (params_follows client.mine params.length ⟨rfl, rfl⟩).modes
  have ruled : (if trusted then st.user else client.user.rules features.operOnly client.mine st.user).operModes =
      client.user.operModes.change trusted params behind := by
    unfold OperModes.change
    rw [← scanned]
    cases trusted with
    | true => rfl
    | false =>
      exact rules_operModes client.user st.user features.operOnly client.mine
  have connected := (connected_if_operModes client.user _ client.mine st.tmpmask).trans ruled
  split
  · exact (@put_operModes _ (.mode .hiddenHost) (by decide) (by decide) true).trans connected
  · exact connected

def countChange (old new : OperModes) (opers : UInt32) : UInt32 :=
  if !old.oper && new.oper then opers + 1
  else if old.oper && !new.oper && !new.locop then opers - 1
  else opers

section
variable (client : ModeClient)

@[simp] theorem clearPrivs_operModes : client.clearPrivs.user.operModes = client.user.operModes := by
  unfold ModeClient.clearPrivs
  split <;> rfl

@[simp] theorem clearPrivs_mine : client.clearPrivs.mine = client.mine := by
  unfold ModeClient.clearPrivs
  split <;> rfl

@[simp] theorem clearPrivs_registered : client.clearPrivs.registered = client.registered := by
  unfold ModeClient.clearPrivs
  split <;> rfl

end

structure SameClient (client client' : ModeClient) : Prop where
  mine : client'.mine = client.mine
  registered : client'.registered = client.registered

theorem counted_client (old : RegUser) (client : ModeClient) (opers : UInt32) :
    (client.counted old opers).1.user.operModes = client.user.operModes ∧
      SameClient client (client.counted old opers).1 := by
  unfold ModeClient.counted
  dsimp only
  split
  · exact ⟨rfl, ⟨rfl, rfl⟩⟩
  · split <;> split <;> exact ⟨by simp, ⟨by simp, by simp⟩⟩

theorem counted_opers (old : RegUser) (client : ModeClient) (opers : UInt32) :
    (client.counted old opers).2 =
      if client.registered then countChange old.operModes client.user.operModes opers else opers := by
  unfold ModeClient.counted countChange RegUser.operModes RegUser.isAnOper
  cases client.registered with
  | false => rfl
  | true =>
    dsimp only
    cases old.flags (.mode .oper) with
    | false =>
      cases client.user.flags (.mode .oper) with
      | false => cases old.flags .locop <;> cases client.user.flags .locop <;> rfl
      | true => cases old.flags .locop <;> rfl
    | true =>
      cases client.user.flags (.mode .oper) with
      | false => cases client.user.flags .locop <;> rfl
      | true => rfl

theorem setUserModes_spec (features : ModeFeatures) (trusted : Bool) (client : ModeClient) (opers : UInt32)
    {params : List (List Char)} (some_modes : params ≠ []) (behind : List (List Char)) :
    (setUserModes features trusted client opers params behind).1.user.operModes =
        client.user.operModes.change trusted params behind ∧
      SameClient client (setUserModes features trusted client opers params behind).1 ∧
      (setUserModes features trusted client opers params behind).2 = if client.registered then
        countChange client.user.operModes (client.user.operModes.change trusted params behind) opers
        else opers := by
  rw [← changed_operModes features, setUserModes, if_neg some_modes]
  obtain ⟨modes, same⟩ := counted_client client.user
    { client with user := client.changed features trusted params behind } opers
  exact ⟨modes, ⟨same.mine, same.registered⟩, counted_opers client.user _ opers⟩

def operPluses : Bool → List Char → Nat
  | _, [] => 0
  | add, c :: letters =>
    if c = '+' then operPluses true letters
    else if c = '-' then operPluses false letters
    else operPluses add letters + if add && c = 'o' then 1 else 0

/-- A letter that is no sign gives `+o` if it is an `o` under a plus, and nothing else for the count. -/
theorem operLetter_spec (st : Tallied) (add : Bool) {c : Char} (not_plus : c ≠ '+') (not_minus : c ≠ '-') :
    ∃ st', operLetter (st, add) c = (st', add) ∧
      st'.user.flags (.mode .oper) = (st.user.flags (.mode .oper) || (add && c = 'o')) ∧
      st'.opers = st.opers + if add && c = 'o' then 1 else 0 := by
  unfold operLetter
  rw [if_neg not_plus, if_neg not_minus]
  cases add with
  | false => exact ⟨st, rfl, by simp, by simp⟩
  | true =>
    rw [if_neg (by simp)]
    have other {f : Flag} (not_oper : f ≠ .mode .oper) (not_o : c ≠ 'o') :
        (st.user.put f true).flags (.mode .oper) = (st.user.flags (.mode .oper) || (true && c = 'o')) ∧
          st.opers = st.opers + if true && c = 'o' then 1 else 0 := by
      rw [put_other _ _ not_oper.symm]
      simp [not_o]
    split
    next letter => exact ⟨_, rfl, other (by decide) (by rw [letter]; decide)⟩
    split
    next letter => exact ⟨_, rfl, other (by decide) (by rw [letter]; decide)⟩
    split
    next letter => exact ⟨_, rfl, other (by decide) (by rw [letter]; decide)⟩
    split
    next letter => exact ⟨_, rfl, by simp [letter], by simp [letter]⟩
    next not_o =>
      split
      · exact ⟨_, rfl, other (by decide) not_o⟩
      split
      · exact ⟨_, rfl, other (by decide) not_o⟩
      · exact ⟨_, rfl, by simp [not_o], by simp [not_o]⟩

theorem letters_oper (letters : List Char) (st : Tallied) (add : Bool) :
    (letters.foldl operLetter (st, add)).1.user.flags (.mode .oper) =
        (st.user.flags (.mode .oper) || decide (operPluses add letters ≠ 0)) ∧
      (letters.foldl operLetter (st, add)).1.opers = st.opers + UInt32.ofNat (operPluses add letters) := by
  induction letters generalizing st add with
  | nil => simp [operPluses]
  | cons c letters ih =>
    rw [List.foldl_cons, operPluses]
    by_cases plus : c = '+'
    · rw [if_pos plus, operLetter, if_pos plus]
      exact ih st true
    by_cases minus : c = '-'
    · rw [if_neg plus, if_pos minus, operLetter, if_neg plus, if_pos minus]
      exact ih st false
    obtain ⟨st', steps, flag, opers⟩ := operLetter_spec st add plus minus
    rw [if_neg plus, if_neg minus, steps]
    obtain ⟨flag', opers'⟩ := ih st' add
    rw [flag', opers', flag, opers]
    cases gives : add && decide (c = 'o') with
    | false => simp
    | true =>
      refine ⟨by simp, ?_⟩
      rw [if_pos rfl, if_pos rfl, UInt32.ofNat_add, UInt32.add_assoc, UInt32.add_comm 1]
      rfl

theorem clear_kept {u : RegUser} {fs : List Flag} {f : Flag} (kept : f ∉ fs) :
    (u.clear fs).flags f = u.flags f := by
  rw [clear_flags, if_neg kept]

theorem grant_oper (u : RegUser) (privs : Priv → Bool) :
    (u.grant privs).flags (.mode .oper) = u.flags (.mode .oper) := by
  unfold RegUser.grant
  split
  · simp (disch := decide) only [setSnomask_flags, put_other]
  · rfl

theorem nickregSetModeprivs_spec (st : Tallied) (ddboptr : DdbOperator) :
    (nickregSetModeprivs st ddboptr).user.flags (.mode .oper) =
        (st.user.flags (.mode .oper) || decide (operPluses true ddboptr.letters ≠ 0)) ∧
      (nickregSetModeprivs st ddboptr).opers = st.opers + UInt32.ofNat (operPluses true ddboptr.letters) := by
  obtain ⟨flag, opers⟩ := letters_oper ddboptr.letters st true
  exact ⟨(grant_oper _ _).trans flag, opers⟩

theorem nickregClearModeprivs_opers (features : OperOnly) (st : Tallied) :
    (nickregClearModeprivs features st).user.flags (.mode .oper) = st.user.flags (.mode .oper) ∧
      (nickregClearModeprivs features st).opers =
        if !st.user.flags .operByCmd && st.user.flags (.mode .oper) then st.opers - 1 else st.opers := by
  have cleared (f : Flag) := @clear_kept st.user [.mode .admin, .mode .coder, .mode .helper, .mode .servicesBot] f
  cases byCmd : st.user.flags .operByCmd with
  | false =>
    refine ⟨(nickregClearModeprivs_spec features byCmd).oper, ?_⟩
    unfold nickregClearModeprivs
    dsimp only
    rw [cleared .operByCmd (by decide), byCmd, if_pos (by rfl)]
    dsimp only
    rw [put_other _ _ (by decide), cleared _ (by decide)]
    rfl
  | true =>
    unfold nickregClearModeprivs
    dsimp only
    rw [cleared .operByCmd (by decide), byCmd, if_neg (by decide)]
    exact ⟨by rw [clear_flags, if_neg (by decide), cleared _ (by decide)], rfl⟩

structure Network (Client : Type) where
  clients : Client → ModeClient
  opers : UInt32

variable {Client : Type} [DecidableEq Client]

def ModeClient.isCounted (client : ModeClient) : Bool := client.registered && client.user.flags (.mode .oper)

def Network.operators [Fintype Client] (net : Network Client) : Nat :=
  (Finset.univ.filter fun c => (net.clients c).isCounted = true).card

/-- The count is the number; both are `unsigned int`. -/
def Network.Counts [Fintype Client] (net : Network Client) : Prop := net.opers = UInt32.ofNat net.operators

instance [Fintype Client] (net : Network Client) : Decidable net.Counts := inferInstanceAs (Decidable (_ = _))

inductive OperEvent (Client : Type) where
  | setUserMode (client : Client) (trusted : Bool) (params behind : List (List Char))
  | setModeprivs (client : Client) (ddboptr : DdbOperator)
  | clearModeprivs (client : Client)
  | operatorTable (client : Client) (ddboptr : Option DdbOperator) (key : List Char) (content : Option OperFields)

def OperEvent.client : OperEvent Client → Client
  | .setUserMode client _ _ _ => client
  | .setModeprivs client _ => client
  | .clearModeprivs client => client
  | .operatorTable client _ _ _ => client

/-- What an event does to its client and to the count. An event of the table is for the user that has
the nick, if it is on this server. -/
def OperEvent.apply (features : ModeFeatures) (client : ModeClient) (opers : UInt32) :
    OperEvent Client → ModeClient × UInt32
  | .setUserMode _ trusted params behind => setUserModes features trusted client opers params behind
  | .setModeprivs _ ddboptr =>
    let st := nickregSetModeprivs ⟨client.user, opers⟩ ddboptr
    ({ client with user := st.user }, st.opers)
  | .clearModeprivs _ =>
    let st := nickregClearModeprivs features.operOnly ⟨client.user, opers⟩
    ({ client with user := st.user }, st.opers)
  | .operatorTable _ ddboptr key content =>
    if client.mine && client.registered then
      let st := eventOperators features.operOnly ⟨client.user, opers⟩ ddboptr key content
      ({ client with user := st.user }, st.opers)
    else (client, opers)

def Network.step (features : ModeFeatures) (net : Network Client) (event : OperEvent Client) : Network Client :=
  let result := event.apply features (net.clients event.client) net.opers
  ⟨Function.update net.clients event.client result.1, result.2⟩

def OperFields.letters (fields : OperFields) : List Char := (fields.modes.getD []).takeWhile fun c => !isBlank c

/-- Whether `-o` or `-O` is followed only by `+O`, in a list with the last letter first. -/
def isDropped : List OperMode → Bool
  | .locop :: found => isDropped found
  | .dropped :: _ => true
  | _ => false

/-- The modes of a mode string that makes an operator a local operator, as `-o+O` does. -/
def makesLocal : List OperMode → Bool
  | .locop :: found => isDropped found
  | _ => false

/-- A record gives `+o` at most once, and to a registered user that is no operator. -/
def givesOnce (client : ModeClient) (pluses : Nat) : Prop :=
  pluses = 0 ∨ pluses = 1 ∧ client.registered = true ∧ client.user.flags (.mode .oper) = false

def OperEvent.Followed (client : ModeClient) : OperEvent Client → Prop
  | .setUserMode _ trusted params behind =>
    -- `+O` is ignored when the change is not trusted and the user was no local operator
    client.isCounted = true → makesLocal (operModesOf params behind) = true →
      trusted = false ∧ client.user.flags .locop = false
  | .setModeprivs _ ddboptr => givesOnce client (operPluses true ddboptr.letters)
  | .clearModeprivs _ => client.user.flags .operByCmd = true ∨ client.user.flags (.mode .oper) = false
  | .operatorTable _ ddboptr key content =>
    client.mine = true → client.registered = true →
      match content with
      | none =>
        (Revocation.operatorDeleted ddboptr key).reaches client.user = true →
          client.user.flags .operByCmd = true ∨ client.user.flags (.mode .oper) = false
      | some fields =>
        client.user.flags (.mode .account) = true →
          operPluses true fields.letters = 0 ∨
          operPluses true fields.letters = 1 ∧
            (client.user.flags .operByCmd = false ∨ client.user.flags (.mode .oper) = false)

def ModeClient.tally (client : ModeClient) : UInt32 := if client.isCounted then 1 else 0

structure Kept (client : ModeClient) (opers : UInt32) (result : ModeClient × UInt32) : Prop where
  same : SameClient client result.1
  count : result.2 + client.tally = opers + result.1.tally

section
variable {client client' : ModeClient} {opers opers' : UInt32}

theorem kept_of_modes (same : SameClient client client') (modes : client'.isCounted = client.isCounted)
    (count : opers' = opers) : Kept client opers (client', opers') :=
  ⟨same, by rw [count, ModeClient.tally, ModeClient.tally, modes]⟩

theorem isDropped_iff {old : OperModes} (was : old.oper = true) (found : List OperMode) :
    isDropped found = !(old.behind found).oper := by
  induction found with
  | nil => exact (congrArg not was).symm
  | cons mode found ih =>
    cases mode with
    | dropped => rfl
    | oper => rfl
    | locop => exact ih

/-- A mode string takes an operator's `FLAG_OPER` and leaves him an operator only as `-o+O` does. -/
theorem not_local {old : OperModes} (was : old.oper = true) {trusted : Bool} {params behind : List (List Char)}
    (followed : makesLocal (operModesOf params behind) = true → trusted = false ∧ old.locop = false)
    (ended : (old.change trusted params behind).oper = false) :
    (old.change trusted params behind).locop = false := by
  unfold OperModes.change at ended ⊢
  dsimp only at ended ⊢
  generalize operModesOf params behind = found at followed ended
  have not_oper : (old.behind found).oper = false := by
    cases trusted with
    | true => exact ended
    | false =>
      rw [if_neg Bool.false_ne_true] at ended
      dsimp only at ended
      rwa [was, Bool.and_true] at ended
  match found with
  | [] => exact absurd (was.symm.trans not_oper) Bool.true_eq_false_eq_False.elim
  | .dropped :: _ => cases trusted <;> rfl
  | .oper :: _ => exact absurd not_oper Bool.true_eq_false_eq_False.elim
  | .locop :: found =>
    have dropped : isDropped found = true := by
      rw [isDropped_iff was]
      exact congrArg not not_oper
    obtain ⟨untrusted, locop⟩ := followed dropped
    rw [untrusted, locop, if_neg Bool.false_ne_true]
    dsimp only
    exact Bool.and_false _

theorem setUserModes_kept (features : ModeFeatures) {trusted : Bool} {params behind : List (List Char)}
    (followed : client.isCounted = true → makesLocal (operModesOf params behind) = true →
      trusted = false ∧ client.user.flags .locop = false) :
    Kept client opers (setUserModes features trusted client opers params behind) := by
  by_cases nothing : params = []
  · rw [setUserModes, if_pos nothing]
    exact ⟨⟨rfl, rfl⟩, rfl⟩
  obtain ⟨modes, same, count⟩ := setUserModes_spec features trusted client opers nothing behind
  have oper : (setUserModes features trusted client opers params behind).1.user.flags (.mode .oper) =
      (client.user.operModes.change trusted params behind).oper := congrArg OperModes.oper modes
  refine ⟨same, ?_⟩
  rw [count, ModeClient.tally, ModeClient.tally, ModeClient.isCounted, ModeClient.isCounted, same.registered, oper]
  unfold countChange
  cases registered : client.registered with
  | false => rfl
  | true =>
    have old : client.user.operModes.oper = client.user.flags (.mode .oper) := rfl
    rw [old]
    cases was : client.user.flags (.mode .oper) with
    | false => cases (client.user.operModes.change trusted params behind).oper <;> simp
    | true =>
      cases ended : (client.user.operModes.change trusted params behind).oper with
      | true => simp
      | false =>
        have counted : client.isCounted = true := by rw [ModeClient.isCounted, registered, was]; rfl
        have not_locop := not_local (old.trans was) (followed counted) ended
        simp [not_locop]

theorem setModeprivs_kept {ddboptr : DdbOperator} (once : givesOnce client (operPluses true ddboptr.letters)) :
    Kept client opers ({ client with user := (nickregSetModeprivs ⟨client.user, opers⟩ ddboptr).user },
      (nickregSetModeprivs ⟨client.user, opers⟩ ddboptr).opers) := by
  obtain ⟨flag, count⟩ := nickregSetModeprivs_spec ⟨client.user, opers⟩ ddboptr
  refine ⟨⟨rfl, rfl⟩, ?_⟩
  dsimp only at flag count ⊢
  rw [count, ModeClient.tally, ModeClient.tally, ModeClient.isCounted, ModeClient.isCounted, flag]
  rcases once with never | ⟨once, registered, plain⟩
  · simp [never]
  · simp [once, registered, plain]

theorem clearModeprivs_kept (features : OperOnly)
    (counted : client.user.flags .operByCmd = true ∨ client.user.flags (.mode .oper) = false) :
    Kept client opers ({ client with user := (nickregClearModeprivs features ⟨client.user, opers⟩).user },
      (nickregClearModeprivs features ⟨client.user, opers⟩).opers) := by
  obtain ⟨flag, count⟩ := nickregClearModeprivs_opers features ⟨client.user, opers⟩
  refine kept_of_modes ⟨rfl, rfl⟩ ?_ (count.trans (if_neg ?_))
  · rw [ModeClient.isCounted, flag]
    rfl
  · rcases counted with byCmd | plain
    · simp [byCmd]
    · simp [plain]

theorem ddbOpersGet_letters (ddboptr : Option DdbOperator) (key : List Char) (fields : OperFields) :
    (ddbOpersGet ddboptr key fields false).letters = fields.letters := by
  unfold ddbOpersGet
  cases ddboptr with
  | none => rfl
  | some last => rfl

/-- An operator of the table is out of the count and without the mode before its record is read. -/
theorem withdraw_spec (st : Tallied) :
    st.withdraw.user.flags (.mode .oper) = (st.user.flags .operByCmd && st.user.flags (.mode .oper)) ∧
      st.withdraw.opers =
        if !st.user.flags .operByCmd && st.user.flags (.mode .oper) then st.opers - 1 else st.opers := by
  have cleared (f : Flag) := @clear_kept st.user [.mode .admin, .mode .coder, .mode .helper, .mode .servicesBot] f
  unfold Tallied.withdraw
  dsimp only
  rw [cleared .operByCmd (by decide), cleared (.mode .oper) (by decide)]
  cases st.user.flags .operByCmd with
  | false => exact ⟨by rw [if_pos (by rfl), clear_flags, if_pos (by decide)]; rfl, rfl⟩
  | true => exact ⟨by rw [if_neg (by decide), cleared _ (by decide)]; rfl, rfl⟩

theorem operatorTable_kept (features : OperOnly) {ddboptr : Option DdbOperator} {key : List Char}
    {fields : OperFields} (registered : client.registered = true)
    (once : client.user.flags (.mode .account) = true →
      operPluses true fields.letters = 0 ∨ operPluses true fields.letters = 1 ∧
        (client.user.flags .operByCmd = false ∨ client.user.flags (.mode .oper) = false)) :
    let st := eventOperators features ⟨client.user, opers⟩ ddboptr key (some fields)
    Kept client opers ({ client with user := st.user }, st.opers) := by
  unfold eventOperators
  dsimp only
  by_cases account : client.user.flags (.mode .account) = true
  · rw [if_pos account]
    have once := once account
    obtain ⟨flag, count⟩ := nickregSetModeprivs_spec (Tallied.withdraw ⟨client.user, opers⟩)
      (ddbOpersGet ddboptr key fields false)
    obtain ⟨flag', count'⟩ := withdraw_spec ⟨client.user, opers⟩
    rw [ddbOpersGet_letters] at flag count
    rw [flag'] at flag
    rw [count'] at count
    refine ⟨⟨rfl, rfl⟩, ?_⟩
    dsimp only at flag count ⊢
    rw [count, ModeClient.tally, ModeClient.tally, ModeClient.isCounted, ModeClient.isCounted, flag, registered]
    rcases once with never | ⟨once, table | plain⟩
    · rw [never]
      cases client.user.flags .operByCmd <;> cases client.user.flags (.mode .oper) <;> simp
    · rw [once, table]
      cases client.user.flags (.mode .oper) <;> simp
    · rw [once, plain]
      cases client.user.flags .operByCmd <;> simp
  · rw [if_neg account]
    exact ⟨⟨rfl, rfl⟩, rfl⟩

omit [DecidableEq Client] in
theorem apply_kept (features : ModeFeatures) {event : OperEvent Client} (followed : event.Followed client) :
    Kept client opers (event.apply features client opers) := by
  cases event with
  | setUserMode c trusted params behind => exact setUserModes_kept features followed
  | setModeprivs c ddboptr => exact setModeprivs_kept followed
  | clearModeprivs c => exact clearModeprivs_kept features.operOnly followed
  | operatorTable c ddboptr key content =>
    unfold OperEvent.apply
    dsimp only
    by_cases here : (client.mine && client.registered) = true
    · rw [if_pos here]
      obtain ⟨mine, registered⟩ := Bool.and_eq_true_iff.mp here
      have followed := followed mine registered
      cases content with
      | some fields => exact operatorTable_kept features.operOnly registered followed
      | none =>
        unfold eventOperators
        dsimp only
        rw [Revocation.reaches] at followed
        split
        next reaches => exact clearModeprivs_kept features.operOnly (followed reaches)
        next => exact ⟨⟨rfl, rfl⟩, rfl⟩
    · rw [if_neg here]
      exact ⟨⟨rfl, rfl⟩, rfl⟩

end

@[simp] theorem step_self (features : ModeFeatures) (net : Network Client) (event : OperEvent Client) :
    (net.step features event).clients event.client =
      (event.apply features (net.clients event.client) net.opers).1 := Function.update_self _ _ _

@[simp] theorem step_other (features : ModeFeatures) (net : Network Client) {event : OperEvent Client}
    {other : Client} (different : other ≠ event.client) :
    (net.step features event).clients other = net.clients other :=
  Function.update_of_ne different _ _

section
variable [Fintype Client]

def ModeClient.counts (client : ModeClient) : Nat := if client.isCounted then 1 else 0

theorem tally_counts (client : ModeClient) : client.tally = UInt32.ofNat client.counts := by
  unfold ModeClient.tally ModeClient.counts
  split <;> rfl

theorem operators_split (net : Network Client) (c : Client) :
    net.operators =
      (net.clients c).counts + (Finset.univ.erase c).sum fun other => (net.clients other).counts := by
  unfold Network.operators
  rw [Finset.card_filter]
  exact (Finset.add_sum_erase _ _ (Finset.mem_univ c)).symm

theorem step_operators (features : ModeFeatures) (net : Network Client) (event : OperEvent Client) :
    (net.step features event).operators + (net.clients event.client).counts =
      net.operators + (event.apply features (net.clients event.client) net.opers).1.counts := by
  have others :
      (Finset.univ.erase event.client).sum (fun c => ((net.step features event).clients c).counts) =
        (Finset.univ.erase event.client).sum fun other => (net.clients other).counts :=
    Finset.sum_congr rfl fun other among => by rw [step_other features net (Finset.ne_of_mem_erase among)]
  rw [operators_split (net.step features event) event.client, operators_split net event.client, others, step_self]
  omega

theorem step_counts (features : ModeFeatures) {net : Network Client} {event : OperEvent Client}
    (counts : net.Counts) (followed : event.Followed (net.clients event.client)) :
    (net.step features event).Counts := by
  have kept : Kept (net.clients event.client) net.opers
      (event.apply features (net.clients event.client) net.opers) :=
    apply_kept features followed
  have operators := congrArg UInt32.ofNat (step_operators features net event)
  rw [UInt32.ofNat_add, UInt32.ofNat_add, ← tally_counts, ← tally_counts, ← counts, ← kept.count] at operators
  exact (UInt32.add_left_inj _).mp operators.symm

def Network.states (features : ModeFeatures) (net : Network Client) :
    List (OperEvent Client) → List (Network Client)
  | [] => []
  | event :: events => net.step features event :: (net.step features event).states features events

def Network.FollowsAll (features : ModeFeatures) (net : Network Client) : List (OperEvent Client) → Prop
  | [] => True
  | event :: events =>
    event.Followed (net.clients event.client) ∧ (net.step features event).FollowsAll features events

end

def plainClient : ModeClient := ⟨⟨fun _ => false, fun _ => false, false, 0⟩, true, true⟩

end Ircd.Users
