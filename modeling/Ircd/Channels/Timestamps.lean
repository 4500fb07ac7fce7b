import Ircd.Channels.Burst
import Mathlib.Logic.Function.Basic
import Mathlib.Algebra.Order.Group.Int
import Mathlib.Tactic.Common

/-! The creation time of a channel under JOIN, CREATE, BURST and MODE of other servers.

A message is followed state by state, so that a write to the creation time is seen with the members
that the channel has at that moment. The handlers of BURST and MODE are those of the other modules.
-/

set_option autoImplicit false

namespace Ircd.Channels
open Ircd.Text

abbrev Store (Client : Type) := List Char → Option (Channel Client)

/-- What `ms_join` and `ms_create` ask the rest of the server: `FEAT_OPLEVELS`, `TStime` and whether
the server of the user is in a burst or has not acknowledged ours. -/
structure Site where
  oplevels : Bool
  now : Int
  bursting : Bool

def tsLagTime : Int := 86400

section
variable {Client : Type} [DecidableEq Client]

def channelKey (name : List Char) : List Char := name.map toLower

def Store.put (s : Store Client) (name : List Char) (chan : Option (Channel Client)) : Store Client :=
  Function.update s (channelKey name) chan

/-- `remove_user_from_channel`; there is no channel if it is destroyed. -/
def removeUser (oplevels : Bool) (user : Client) (chan : Channel Client) : Option (Channel Client) :=
  if !chan.members.any (·.user = user) then some chan
  else
    let left := dropMembers (fun m => m.user = user) chan
    if left.members.all (·.status.zombie) then lastGone oplevels (dropMembers (fun _ => true) left) else some left

def addUser (user : Client) (status : Status) (chan : Channel Client) : Channel Client :=
  let delayed := chan.mode.mode .delJoins && !(status.chanop || status.voice)
  let opLevel := if chan.mode.apass = [] then maxOpLevel else 1
  { chan with members := ⟨user, { status with delayed := delayed }, opLevel⟩ :: chan.members }

def noStatus : Status := ⟨false, false, false, false, false, false, false, false⟩

/-- The part of `ms_join` that copies a creation time. -/
def copyTime (creation : Int) (chan : Channel Client) : Channel Client :=
  if creation ≠ 0 ∧ (creation < chan.creationTime ∨ chan.mode.apass = [] ∧ chan.members = []) then
    { creationTime := creation
      mode := ⟨fun f => chan.mode.mode f && (f = .burstAdded || f = .wasDelJoins), 0, [], [], []⟩
      members := chan.members.map fun m => { m with status := { m.status with chanop := false, voice := false } }
      banlist := chan.banlist }
  else chan

/-- One name of `ms_join`: the states that it leads to, in order. A zombie leaves before it joins
again; if the channel goes with it, nothing is left to join. -/
def joinName (site : Site) (sptr : Client) (creation : Int) (s : Store Client) (name : List Char) :
    List (Store Client) :=
  if peek name ≠ '#' then []
  else
    let join (status : Status) (chan : Channel Client) : Option (Channel Client) :=
      some (addUser sptr status (copyTime creation chan))
    match s (channelKey name) with
    | none =>
      [s.put name (some (addUser sptr { noStatus with deopped := true } { newChannel with creationTime := creation }))]
    | some chan =>
      match chan.members.find? (·.user = sptr) with
      | none => [s.put name (join { noStatus with deopped := true } chan)]
      | some member =>
        if !member.status.zombie then []
        else
          let left := removeUser site.oplevels sptr chan
          s.put name left :: match left with
            | none => []
            | some chan => [s.put name (join { noStatus with deopped := member.status.deopped } chan)]

/-- The names behind the last `0` of the list, and whether there is one: the loop of `last0`. -/
def last0 (chanlist : List Char) : List (List Char) × Bool :=
  let names := chanlist.splitOn ','
  (((names.reverse.takeWhile (· ≠ ['0'])).reverse).filter (· ≠ []), names.contains ['0'])

def partAll (site : Site) (sptr : Client) (s : Store Client) : Store Client :=
  fun key => (s key).bind (removeUser site.oplevels sptr)

def createName (site : Site) (sptr : Client) (chanTS : Int) (s : Store Client) (name : List Char) :
    List (Store Client) :=
  let created (chan : Channel Client) : Option (Channel Client) :=
    some (addUser sptr { noStatus with chanop := true } { chan with creationTime := chanTS })
  if peek name ≠ '#' then []
  else
    match s (channelKey name) with
    | none => [s.put name (created newChannel)]
    | some chan =>
      if chan.members.any (·.user = sptr) then []
      else
        let bounced : Bool := site.now - chanTS > tsLagTime || chan.creationTime ≠ 0 && chanTS > chan.creationTime &&
          !(chan.members = [] && chan.mode.apass = [])
        let badop := bounced && (!site.bursting || chanTS > chan.creationTime + 4)
        [s.put name (if badop then some (addUser sptr noStatus chan) else created chan)]

def lastState (s : Store Client) (states : List (Store Client)) : Store Client := states.getLastD s

def overNames (f : Store Client → List Char → List (Store Client)) : Store Client → List (List Char) → List (Store Client)
  | _, [] => []
  | s, name :: names => f s name ++ overNames f (lastState s (f s name)) names

inductive Message (Client : Type) where
  | join (site : Site) (sptr : Client) (chanlist : List Char) (creation : Option (List Char))
  | create (site : Site) (sptr : Client) (chanlist ts : List Char)
  | burst (link : Link Client) (parv : List (List Char))
  | mode (world : World Client) (bursting : Bool) (flags : ParseFlags) (name modestr : List Char)
      (args : List (List Char))

def msJoin (site : Site) (sptr : Client) (chanlist : List Char) (creation : Option (List Char)) (s : Store Client) :
    List (Store Client) :=
  let (names, join0) := last0 chanlist
  let first := if join0 then [partAll site sptr s] else []
  first ++ overNames (joinName site sptr ((creation.map atoi).getD 0)) (lastState s first) names

def msCreate (site : Site) (sptr : Client) (chanlist ts : List Char) (s : Store Client) : List (Store Client) :=
  if ts = [] then [] else overNames (createName site sptr (atoi ts)) s (strtok ',' chanlist)

def msBurstStore (link : Link Client) (parv : List (List Char)) (s : Store Client) : List (Store Client) :=
  match parv with
  | name :: _ => [s.put name (msBurst link (s (channelKey name)) parv).1]
  | [] => []

def msModeStore (world : World Client) (bursting : Bool) (flags : ParseFlags) (name modestr : List Char)
    (args : List (List Char)) (s : Store Client) : List (Store Client) :=
  match s (channelKey name) with
  | none => []
  | some chan => [s.put name (some (modeParse world bursting flags chan modestr args).1.chan)]

def Message.states (s : Store Client) : Message Client → List (Store Client)
  | .join site sptr chanlist creation => msJoin site sptr chanlist creation s
  | .create site sptr chanlist ts => msCreate site sptr chanlist ts s
  | .burst link parv => msBurstStore link parv s
  | .mode world bursting flags name modestr args => msModeStore world bursting flags name modestr args s

def runStates : Store Client → List (Message Client) → List (Store Client)
  | _, [] => []
  | s, m :: rest => m.states s ++ runStates (lastState s (m.states s)) rest

omit [DecidableEq Client] in
theorem dropMembers_time (gone : Membership Client → Bool) (chan : Channel Client) :
    (dropMembers gone chan).creationTime = chan.creationTime := by
  unfold dropMembers checkDelayedJoins
  dsimp only
  split
  · split <;> rfl
  · rfl

variable {chan : Channel Client}

omit [DecidableEq Client] in
theorem lastGone_time {oplevels : Bool} {left : Channel Client} (gone : lastGone oplevels chan = some left) :
    left.creationTime = chan.creationTime := by
  unfold lastGone at gone
  dsimp only at gone
  split at gone
  · split at gone
    · cases gone
      rfl
    · cases gone
  · cases gone
    rfl

theorem removeUser_time {oplevels : Bool} {user : Client} {left : Channel Client}
    (gone : removeUser oplevels user chan = some left) : left.creationTime = chan.creationTime := by
  unfold removeUser at gone
  dsimp only at gone
  split at gone
  · cases gone
    rfl
  · split at gone
    · rw [lastGone_time gone, dropMembers_time, dropMembers_time]
    · cases gone
      exact dropMembers_time _ chan

omit [DecidableEq Client] in
theorem parseLimitValue_time (flags : ParseFlags) (st : ParseState Client) (tLimit : Nat) :
    (parseLimitValue flags st tLimit).chan.creationTime = st.chan.creationTime := by
  unfold parseLimitValue
  dsimp only
  split
  · rfl
  · split
    · rfl
    · split
      · rfl
      · split
        · rfl
        · split <;> rfl

omit [DecidableEq Client] in
theorem parsePass_time {flags : ParseFlags} {allow : Done → Dir → Option Done}
    {refused : ParseState Client → List Char → Bool} {apply : ParseState Client → List Char → ParseState Client}
    (keeps : ∀ st arg, (apply st arg).chan.creationTime = st.chan.creationTime) (st : ParseState Client) :
    (parsePass flags allow refused apply st).chan.creationTime = st.chan.creationTime := by
  unfold parsePass
  split
  · rfl
  · dsimp only
    split
    · rfl
    · split
      · rfl
      · exact keeps _ _

theorem parseLetter_time (world : World Client) (flags : ParseFlags) (st : ParseState Client) (c : Char) :
    (parseLetter world flags st c).chan.creationTime = st.chan.creationTime := by
  unfold parseLetter
  split
  · rfl
  split
  · rfl
  split
  · unfold modeParseLimit
    split
    · exact parseLimitValue_time flags st _
    · split
      · rfl
      · dsimp only
        split
        · rfl
        · split
          · rfl
          · exact parseLimitValue_time flags _ _
  split
  · refine parsePass_time (fun st arg => ?_) st
    unfold applyKey
    split <;> rfl
  split
  · refine parsePass_time (fun st arg => ?_) st
    unfold applyApass
    split
    · split <;> rfl
    · rfl
  split
  · refine parsePass_time (fun st arg => ?_) st
    unfold applyUpass
    split <;> rfl
  split
  · unfold modeParseBan
    split
    · rfl
    · dsimp only
      split <;> rfl
  split
  · unfold modeParseClient
    split
    · rfl
    · dsimp only
      split <;> rfl
  split
  · unfold modeParseClient
    split
    · rfl
    · dsimp only
      split <;> rfl
  split
  · unfold modeParseMode
    split
    · rfl
    · split <;> rfl
  · rfl

theorem parseLetters_time (world : World Client) (flags : ParseFlags) (text : List Char) (st : ParseState Client) :
    (text.foldl (parseLetter world flags) st).chan.creationTime = st.chan.creationTime := by
  induction text generalizing st with
  | nil => rfl
  | cons c text ih => rw [List.foldl_cons, ih, parseLetter_time]

theorem finish_time (flags : ParseFlags) (st : ParseState Client) :
    (finish flags st).chan.creationTime = st.chan.creationTime := by
  unfold finish
  split <;> rfl

theorem modeParse_burst_time (world : World Client) (bursting : Bool) {flags : ParseFlags} (burst : flags.burst = true)
    (chan : Channel Client) (modestr : List Char) (args : List (List Char)) :
    (modeParse world bursting flags chan modestr args).1.chan.creationTime = chan.creationTime := by
  unfold modeParse
  dsimp only
  rw [if_pos (.inl burst), finish_time, parseLetters_time]
  rfl

theorem modeParse_time (world : World Client) (bursting : Bool) (flags : ParseFlags) (chan : Channel Client)
    (modestr : List Char) (args : List (List Char)) :
    (modeParse world bursting flags chan modestr args).1.chan.creationTime ≤ chan.creationTime := by
  have read : (modestr.foldl (parseLetter world flags) (startState chan args)).chan.creationTime = chan.creationTime :=
    parseLetters_time world flags modestr _
  unfold modeParse
  dsimp only
  generalize modestr.foldl (parseLetter world flags) (startState chan args) = st at read
  have finished : ∀ (flags : ParseFlags) (st' : ParseState Client), st'.chan.creationTime = st.chan.creationTime →
      (finish flags st').chan.creationTime ≤ chan.creationTime := by
    intro flags st' same
    exact le_of_eq ((finish_time flags st').trans (same.trans read))
  split
  · exact finished flags st rfl
  · split
    · split
      · split
        · exact finished flags _ rfl
        · split
          · rename_i earlier
            rw [finish_time, ← read]
            exact le_of_lt earlier.2
          · split
            · split
              · exact le_of_eq read
              · exact finished _ _ rfl
            · exact finished flags _ rfl
      · exact finished flags st rfl
    · exact finished flags st rfl

theorem burstParams_time (link : Link Client) (set wipeout : Bool) (fuel : Nat) (st : BurstState Client)
    (params : List (List Char)) :
    (burstParams link set wipeout fuel st params).chan.creationTime = st.chan.creationTime := by
  induction fuel generalizing st params with
  | zero => rfl
  | succ fuel ih =>
    cases params with
    | nil => rfl
    | cons param rest =>
      unfold burstParams
      split
      · rw [ih]
        exact modeParse_burst_time link.world false rfl st.chan param rest
      · split
        · rw [ih]
        · rw [ih]

theorem readBurst_time (link : Link Client) (chan : Channel Client) (timestamp : Int) (params : List (List Char)) :
    (readBurst link chan timestamp params).chan.creationTime =
      if chan.creationTime = 0 ∨ chan.creationTime > timestamp then timestamp else chan.creationTime := by
  have cleaned : ∀ (set wipeout : Bool) (c : Channel Client), (cleanUp set wipeout c).creationTime = c.creationTime := by
    intro set wipeout c
    unfold cleanUp
    split <;> rfl
  unfold readBurst
  rw [cleaned, burstParams_time]
  unfold prepare
  by_cases older : chan.creationTime = 0 ∨ chan.creationTime > timestamp
  · have wipes : (decide (chan.creationTime = 0) || decide (chan.creationTime > timestamp)) = true := by simpa using older
    rw [if_pos older, wipes, if_pos rfl]
  · have keeps : (decide (chan.creationTime = 0) || decide (chan.creationTime > timestamp)) = false := by simpa using older
    rw [if_neg older, keeps, if_neg (by simp)]

omit [DecidableEq Client] in
theorem netRide_time (link : Link Client) (chan : Channel Client) (params : List (List Char)) :
    (∀ left, netRide link chan params = .error (some left) → left.creationTime = chan.creationTime) ∧
      ∀ left, netRide link chan params = .ok (some left) → left.creationTime = chan.creationTime := by
  unfold netRide
  split
  · refine ⟨fun left => nofun, fun left same => ?_⟩
    cases same
    rfl
  · split
    · refine ⟨fun left same => ?_, fun left => nofun⟩
      have gone := Except.error.inj same
      split at gone
      · exact lastGone_time gone
      · cases gone
        rfl
    · refine ⟨fun left => nofun, fun left same => ?_⟩
      have kicked := Except.ok.inj same
      unfold kickNetRiders at kicked
      split at kicked
      · cases kicked
        rfl
      · split at kicked
        · rw [lastGone_time kicked, dropMembers_time]
        · cases kicked
          exact dropMembers_time _ chan

omit [DecidableEq Client] in
theorem burstTimes_peopled (peopled : chan.members ≠ []) (timed : chan.creationTime ≠ 0) (timestamp : Int)
    (params : List (List Char)) : (burstTimes chan timestamp params).2 = chan.creationTime := by
  unfold burstTimes
  rw [if_neg timed]
  split
  · split <;> rfl
  · rw [if_neg fun empty => peopled empty.2.2]

theorem msBurst_time (link : Link Client) {left : Channel Client} {parv : List (List Char)}
    (peopled : chan.members ≠ []) (timed : chan.creationTime ≠ 0)
    (result : (msBurst link (some chan) parv).1 = some left) : left.creationTime ≤ chan.creationTime := by
  unfold msBurst at result
  split at result
  · rename_i name ts params
    split at result
    · simp only [Option.getD_some, burstTimes_peopled peopled timed] at result
      split at result
      · rename_i older
        have newer : (burstTimes chan (atoi ts) params).1 < chan.creationTime := by
          rcases older with zero | newer
          · exact absurd zero timed
          · exact newer
        obtain ⟨stopped, rode⟩ := netRide_time link chan params
        split at result
        · rename_i gone stops
          have same : gone = some left := result
          rw [same] at stops
          exact le_of_eq (stopped left stops)
        · rename_i rest rides
          have same := Option.some.inj result
          rw [← same, readBurst_time]
          have wins : (rest.getD newChannel).creationTime = 0 ∨
              (rest.getD newChannel).creationTime > (burstTimes chan (atoi ts) params).1 := by
            cases rest with
            | none => exact .inl rfl
            | some rest =>
              right
              rw [Option.getD_some, rode rest rides]
              exact newer
          rw [if_pos wins]
          exact le_of_lt newer
      · rename_i not_older
        have same := Option.some.inj result
        rw [← same, readBurst_time]
        exact le_of_eq (if_neg not_older)
    · cases result
      exact le_refl _
  · cases result
    exact le_refl _

def Shrinks (s s' : Store Client) : Prop :=
  ∀ key chan chan', s key = some chan → s' key = some chan' → chan.members ≠ [] → chan.creationTime ≠ 0 →
    chan'.creationTime ≤ chan.creationTime

def NeverGrows : Store Client → List (Store Client) → Prop
  | _, [] => True
  | s, s' :: states => Shrinks s s' ∧ NeverGrows s' states

omit [DecidableEq Client] in
theorem neverGrows_append (s : Store Client) (states more : List (Store Client)) :
    NeverGrows s (states ++ more) ↔ NeverGrows s states ∧ NeverGrows (lastState s states) more := by
  induction states generalizing s with
  | nil => exact (and_iff_right trivial).symm
  | cons s' states ih =>
    have last : lastState s (s' :: states) = lastState s' states := by cases states <;> rfl
    rw [List.cons_append, NeverGrows, NeverGrows, ih, last, and_assoc]

omit [DecidableEq Client] in
theorem shrinks_put (s : Store Client) (name : List Char) (chan' : Option (Channel Client)) :
    Shrinks s (s.put name chan') ↔ ∀ chan left, s (channelKey name) = some chan → chan' = some left →
      chan.members ≠ [] → chan.creationTime ≠ 0 → left.creationTime ≤ chan.creationTime := by
  constructor
  · intro shrinks chan left found same peopled timed
    refine shrinks (channelKey name) chan left found ?_ peopled timed
    rw [Store.put, Function.update_self, same]
  · intro here key chan left found after peopled timed
    by_cases same : key = channelKey name
    · rw [same] at found after
      rw [Store.put, Function.update_self] at after
      exact here chan left found after peopled timed
    · rw [Store.put, Function.update_of_ne same, found] at after
      cases after
      exact le_refl _

omit [DecidableEq Client] in
theorem copyTime_time (creation : Int) (peopled : chan.members ≠ []) :
    (copyTime creation chan).creationTime ≤ chan.creationTime := by
  unfold copyTime
  split
  · rename_i copies
    rcases copies.2 with earlier | ⟨-, empty⟩
    · exact le_of_lt earlier
    · exact absurd empty peopled
  · exact le_refl _

theorem joinName_neverGrows (site : Site) (sptr : Client) (creation : Int) (s : Store Client) (name : List Char) :
    NeverGrows s (joinName site sptr creation s name) := by
  unfold joinName
  dsimp only
  split
  · trivial
  · split
    · rename_i absent
      refine ⟨(shrinks_put s name _).mpr fun chan left found => ?_, trivial⟩
      rw [absent] at found
      cases found
    · rename_i chan found
      split
      · refine ⟨(shrinks_put s name _).mpr fun chan' left found' same peopled timed => ?_, trivial⟩
        cases found.symm.trans found'
        cases same
        exact copyTime_time creation peopled
      · rename_i member _
        split
        · trivial
        · have removed : Shrinks s (s.put name (removeUser site.oplevels sptr chan)) := by
            refine (shrinks_put s name _).mpr fun chan' left found' same peopled timed => ?_
            cases found.symm.trans found'
            exact le_of_eq (removeUser_time same)
          refine ⟨removed, ?_⟩
          split
          · trivial
          · rename_i left stays
            rw [stays]
            refine ⟨?_, trivial⟩
            -- the channel is written over itself
            have again : s.put name (some (addUser sptr { noStatus with deopped := member.status.deopped }
                (copyTime creation left))) =
                (s.put name (some left)).put name (some (addUser sptr
                  { noStatus with deopped := member.status.deopped } (copyTime creation left))) := by
              unfold Store.put
              rw [Function.update_idem]
            rw [again]
            refine (shrinks_put _ name _).mpr fun chan' left' found' same peopled timed => ?_
            rw [Store.put, Function.update_self] at found'
            cases found'
            cases same
            exact copyTime_time creation peopled

/-- A user of a bursting server creates a channel that has members, with a time that is at most four
seconds later than that of the channel. -/
def LateCreate (site : Site) (sptr : Client) (chanTS : Int) (s : Store Client) (name : List Char) : Prop :=
  peek name = '#' ∧ site.bursting = true ∧ ∃ chan, s (channelKey name) = some chan ∧ chan.members ≠ [] ∧
    chan.creationTime ≠ 0 ∧ (∀ m ∈ chan.members, m.user ≠ sptr) ∧
    chan.creationTime < chanTS ∧ chanTS ≤ chan.creationTime + 4

theorem createName_neverGrows (site : Site) (sptr : Client) (chanTS : Int) (s : Store Client) (name : List Char) :
    NeverGrows s (createName site sptr chanTS s name) ↔ ¬ LateCreate site sptr chanTS s name := by
  unfold createName LateCreate
  dsimp only
  by_cases global : peek name = '#'
  · rw [if_neg (by simpa using global)]
    cases found : s (channelKey name) with
    | none =>
      refine iff_of_true ⟨(shrinks_put s name _).mpr fun chan left found' => ?_, trivial⟩ (by simp)
      rw [found] at found'
      cases found'
    | some chan =>
      dsimp only
      by_cases joined : chan.members.any (·.user = sptr) = true
      · rw [if_pos joined]
        refine iff_of_true trivial ?_
        rintro ⟨-, -, chan', same, -, -, absent, -⟩
        cases same
        obtain ⟨m, mem, user⟩ := List.any_eq_true.mp joined
        exact absent m mem (of_decide_eq_true user)
      · rw [if_neg joined]
        have absent : ∀ m ∈ chan.members, m.user ≠ sptr := by simpa using joined
        simp only [NeverGrows, and_true]
        rw [shrinks_put]
        constructor
        · rintro here ⟨-, bursting, chan', same, peopled, timed, -, later, close⟩
          cases same
          rw [if_neg (by simp [bursting]; omega)] at here
          have grows := here chan _ found rfl peopled timed
          change chanTS ≤ chan.creationTime at grows
          omega
        · intro fine chan' left found' same peopled timed
          rw [found] at found'
          cases found'
          split at same
          · cases same
            exact le_refl _
          · rename_i accepted
            cases same
            change chanTS ≤ chan.creationTime
            by_contra later
            simp only [not_le] at later
            apply fine
            simp [peopled, timed, later] at accepted
            exact ⟨global, accepted.1, chan, rfl, peopled, timed, absent, later, accepted.2⟩
  · rw [if_pos (by simpa using global)]
    exact iff_of_true trivial fun late => global late.1

theorem msJoin_neverGrows (site : Site) (sptr : Client) (chanlist : List Char) (creation : Option (List Char))
    (s : Store Client) : NeverGrows s (msJoin site sptr chanlist creation s) := by
  have names_grow : ∀ (names : List (List Char)) (s : Store Client),
      NeverGrows s (overNames (joinName site sptr ((creation.map atoi).getD 0)) s names) := by
    intro names
    induction names with
    | nil => exact fun s => trivial
    | cons name names ih =>
      intro s
      rw [overNames, neverGrows_append]
      exact ⟨joinName_neverGrows site sptr _ s name, ih _⟩
  unfold msJoin
  dsimp only
  rw [neverGrows_append]
  refine ⟨?_, names_grow _ _⟩
  split
  · refine ⟨fun key chan left found after _ _ => ?_, trivial⟩
    rw [partAll, found, Option.bind_some] at after
    exact le_of_eq (removeUser_time after)
  · trivial

theorem msBurstStore_neverGrows (link : Link Client) (parv : List (List Char)) (s : Store Client) :
    NeverGrows s (msBurstStore link parv s) := by
  unfold msBurstStore
  split
  · rename_i name rest
    refine ⟨(shrinks_put s name _).mpr fun chan left found same peopled timed => ?_, trivial⟩
    rw [found] at same
    exact msBurst_time link peopled timed same
  · trivial

theorem msModeStore_neverGrows (world : World Client) (bursting : Bool) (flags : ParseFlags) (name modestr : List Char)
    (args : List (List Char)) (s : Store Client) :
    NeverGrows s (msModeStore world bursting flags name modestr args s) := by
  unfold msModeStore
  split
  · trivial
  · rename_i chan found
    refine ⟨(shrinks_put s name _).mpr fun chan' left found' same _ _ => ?_, trivial⟩
    cases found.symm.trans found'
    cases same
    exact modeParse_time world bursting flags chan modestr args

def CreatesInTime (site : Site) (sptr : Client) (chanTS : Int) : Store Client → List (List Char) → Prop
  | _, [] => True
  | s, name :: names => ¬ LateCreate site sptr chanTS s name ∧
      CreatesInTime site sptr chanTS (lastState s (createName site sptr chanTS s name)) names

def Message.InTime (s : Store Client) : Message Client → Prop
  | .create site sptr chanlist ts => ts ≠ [] → CreatesInTime site sptr (atoi ts) s (strtok ',' chanlist)
  | _ => True

def RunInTime : Store Client → List (Message Client) → Prop
  | _, [] => True
  | s, m :: rest => m.InTime s ∧ RunInTime (lastState s (m.states s)) rest

theorem createNames_neverGrows (site : Site) (sptr : Client) (chanTS : Int) (s : Store Client)
    (names : List (List Char)) :
    NeverGrows s (overNames (createName site sptr chanTS) s names) ↔ CreatesInTime site sptr chanTS s names := by
  induction names generalizing s with
  | nil => exact Iff.rfl
  | cons name names ih => rw [overNames, neverGrows_append, createName_neverGrows, ih, CreatesInTime]

theorem message_neverGrows (s : Store Client) (m : Message Client) : NeverGrows s (m.states s) ↔ m.InTime s := by
  cases m with
  | join site sptr chanlist creation => exact iff_of_true (msJoin_neverGrows site sptr chanlist creation s) trivial
  | create site sptr chanlist ts =>
    change NeverGrows s (msCreate site sptr chanlist ts s) ↔
      (ts ≠ [] → CreatesInTime site sptr (atoi ts) s (strtok ',' chanlist))
    unfold msCreate
    by_cases missing : ts = []
    · rw [if_pos missing]
      exact iff_of_true trivial fun given => absurd missing given
    · rw [if_neg missing, createNames_neverGrows]
      exact ⟨fun fine _ => fine, fun fine => fine missing⟩
  | burst link parv => exact iff_of_true (msBurstStore_neverGrows link parv s) trivial
  | mode world bursting flags name modestr args =>
    exact iff_of_true (msModeStore_neverGrows world bursting flags name modestr args s) trivial

end

/-- In a run of JOIN, CREATE, BURST and MODE messages no channel with members gets a later time if
and only if no CREATE of a bursting server comes within four seconds of a channel with members. -/
theorem times_never_grow {Client : Type} [DecidableEq Client] (s : Store Client) (messages : List (Message Client)) :
    NeverGrows s (runStates s messages) ↔ RunInTime s messages := by
  induction messages generalizing s with
  | nil => exact Iff.rfl
  | cons m rest ih => rw [runStates, neverGrows_append, message_neverGrows, ih, RunInTime]

def busyChannel : Channel Bool := ⟨100, ⟨.none, 0, [], [], []⟩, [⟨false, noStatus, 0⟩], []⟩

def busyStore : Store Bool := fun key => if key = ['#', 'c'] then some busyChannel else none

/-- The channel gets the time of a CREATE that is two seconds later. -/
theorem create_grows :
    ¬ NeverGrows busyStore (runStates busyStore [.create ⟨true, 200, true⟩ true ['#', 'c'] ['1', '0', '2']]) := by
  intro grows
  have names : strtok ',' ['#', 'c'] = [['#', 'c']] := by decide
  have time : atoi ['1', '0', '2'] = 102 := by decide
  have first : runStates busyStore [.create ⟨true, 200, true⟩ true ['#', 'c'] ['1', '0', '2']] =
      [busyStore.put ['#', 'c'] (some (addUser true { noStatus with chanop := true } { busyChannel with creationTime := 102 }))] := by
    simp only [runStates, Message.states, msCreate, names, time, overNames, List.append_nil]
    rfl
  rw [first] at grows
  have key : channelKey ['#', 'c'] = ['#', 'c'] := by decide
  have later := (shrinks_put busyStore ['#', 'c'] _).mp grows.1 busyChannel _ (by rw [key]; rfl) rfl (by decide) (by decide)
  exact absurd later (by decide)

end Ircd.Channels
