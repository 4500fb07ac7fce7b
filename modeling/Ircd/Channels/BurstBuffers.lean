import Ircd.Channels.Burst
import Ircd.Channels.ModeBuf
import Ircd.Channels.PrettyMask
import Ircd.Match.Collapse
import Ircd.Match.Mmatch

/-! `nickstr` and `banstr` of `ms_burst`: the nicks and the bans of a line, as they are sent on.

They are written anew: a ban in its form, a level as a number or as what it is more than the one before.
-/

set_option autoImplicit false

namespace Ircd.Channels
open Ircd.Text
open Ircd.Match (collapse)

variable {Client : Type}

/-- The server with the functions on masks that `ms_burst` calls. -/
def Link.withMasks (link : Link Client) : Link Client :=
  { link with
    world := { link.world with banMask := fun ban => collapse (prettyMask ban) }
    mmatch := fun old new => Match.mmatch old new = some 0 }

def isNewBan (link : Link Client) (text : List Char) (bans : List Ban) : Bool :=
  bans.all fun ban => ircdStrcmp ban.banstr text ≠ 0 && (ban.flags.burstWipeout || !link.mmatch ban.banstr text)

def writeBan (banstr ban : List Char) : List Char :=
  banstr ++ (if banstr = [] then [' ', ':', '%'] else [' ']) ++ ban

/-- A turn of the loop over the bans: the list and `banstr`. -/
def storeBan (link : Link Client) (acc : List Ban × List Char) (token : List Char) : List Ban × List Char :=
  let ban := link.world.banMask token
  (addBurstBan link ban acc.1, if isNewBan link ban acc.1 then writeBan acc.2 ban else acc.2)

def printUnsigned (n : Int) : List Char := Nat.toDigits 10 (n % 2 ^ 32).toNat

def nickFlags (base : Status) (set : Bool) (st : NickState) (token : List Char) : NickState :=
  match token.dropWhile (· ≠ ':') with
  | [] => st
  | _ :: flags => if set then readFlags base flags.length true st flags else st

def nickName (token : List Char) : List Char := token.takeWhile (· ≠ ':')

def isListed (link : Link Client) (token : List Char) : Bool :=
  (link.world.findNUser (nickName token)).any link.behind

/-- What is written behind a nick, where `last` are `last_mode` and `last_oplevel`. -/
def specifier (last now : NickState) : List Char :=
  if now.mode ≠ last.mode then
    ':' :: (if now.mode.voice then ['v'] else []) ++
      if now.mode.chanop then if now.opLevel ≠ maxOpLevel then printUnsigned now.opLevel else ['o'] else []
  else if now.mode.chanop ∧ now.opLevel ≠ last.opLevel then ':' :: printUnsigned (now.opLevel - last.opLevel)
  else []

/-- `last_mode` and `last_oplevel` behind a nick. -/
def lastWritten (last now : NickState) : NickState :=
  if now.mode ≠ last.mode ∨ now.mode.chanop ∧ now.opLevel ≠ last.opLevel then now else last

/-- `current_mode` and `oplevel`, `last_mode` and `last_oplevel`, and `nickstr`. -/
structure NickWriter where
  now : NickState
  last : NickState
  nickstr : List Char

def storeNick (link : Link Client) (base : Status) (set : Bool) (w : NickWriter) (token : List Char) :
    NickWriter :=
  let now := nickFlags base set w.now token
  if isListed link token then
    { now := now
      last := lastWritten w.last now
      nickstr := w.nickstr ++ (if w.nickstr = [] then ' ' else ',') :: nickName token ++ specifier w.last now }
  else { w with now := now }

def burstParam [DecidableEq Client] (link : Link Client) (set wipeout : Bool) (st : BurstState Client)
    (param : List Char) (rest : List (List Char)) : BurstState Client × List (List Char) :=
  if peek param = '+' then
    let parsed := (modeParse link.world false (burstParseFlags set wipeout) st.chan param rest).1
    ({ st with chan := parsed.chan }, parsed.args)
  else if peek param = '%' then
    let banlist := if set then readBans link st.chan.banlist param else st.chan.banlist
    ({ st with chan := { st.chan with banlist := banlist } }, rest)
  else
    let entries := readNicks link (baseMode (st.chan.mode.mode .delJoins)) set param
    (⟨{ st.chan with members := entries.foldl joinMember st.chan.members }, st.entries ++ entries⟩, rest)

def burstSteps [DecidableEq Client] (link : Link Client) (set wipeout : Bool) :
    Nat → BurstState Client → List (List Char) → List (BurstState Client × List Char)
  | 0, _, _ => []
  | _, _, [] => []
  | fuel + 1, st, param :: rest =>
    let next := burstParam link set wipeout st param rest
    (st, param) :: burstSteps link set wipeout fuel next.1 next.2

structure BurstTexts where
  nickstr : List Char
  banstr : List Char

def storeParam (link : Link Client) (set : Bool) (texts : BurstTexts) (step : BurstState Client × List Char) :
    BurstTexts :=
  let (st, param) := step
  if peek param = '+' then texts
  else if peek param = '%' then
    if set then
      { texts with banstr :=
          ((strtok ' ' (param.drop 1)).foldl (storeBan link) (st.chan.banlist, texts.banstr)).2 }
    else texts
  else
    let base := baseMode (st.chan.mode.mode .delJoins)
    { texts with nickstr :=
        ((strtok ',' param).foldl (storeNick link base set) ⟨⟨base, -1⟩, ⟨base, 0⟩, texts.nickstr⟩).nickstr }

/-- The channel whose parameters `ms_burst` reads, the timestamp and the parameters. -/
def burstStart [DecidableEq Client] (link : Link Client) (chan : Option (Channel Client)) :
    List (List Char) → Option (Channel Client × Int × List (List Char))
  | name :: ts :: params =>
    if isChannelName name then
      let found := chan.getD newChannel
      let times := burstTimes found (atoi ts) params
      let found := { found with creationTime := times.2 }
      if found.creationTime = 0 ∨ found.creationTime > times.1 then
        match netRide link found params with
        | .error _ => none
        | .ok left => some (left.getD newChannel, times.1, params)
      else some (found, times.1, params)
    else none
  | _ => none

def wipesOut (chan : Channel Client) (timestamp : Int) : Bool :=
  chan.creationTime = 0 || chan.creationTime > timestamp

def setsModes (chan : Channel Client) (timestamp : Int) : Bool :=
  wipesOut chan timestamp || chan.creationTime = timestamp

def lineSteps [DecidableEq Client] (link : Link Client) (chan : Channel Client) (timestamp : Int)
    (params : List (List Char)) : List (BurstState Client × List Char) :=
  burstSteps link (setsModes chan timestamp) (wipesOut chan timestamp) params.length
    ⟨prepare (wipesOut chan timestamp) timestamp chan, []⟩ params

def burstTexts [DecidableEq Client] (link : Link Client) (chan : Option (Channel Client))
    (parv : List (List Char)) : BurstTexts :=
  match burstStart link chan parv with
  | none => ⟨[], []⟩
  | some (chan, timestamp, params) =>
    (lineSteps link chan timestamp params).foldl (storeParam link (setsModes chan timestamp)) ⟨[], []⟩

def newBans (link : Link Client) : List Ban → List (List Char) → List (List Char)
  | _, [] => []
  | bans, token :: tokens =>
    let ban := link.world.banMask token
    let behind := newBans link (addBurstBan link ban bans) tokens
    if isNewBan link ban bans then ban :: behind else behind

def levelDigits (n : Int) : Nat := (Nat.toDigits 10 (n % 2 ^ 32).toNat).length

def flagsRoom (last now : NickState) : Nat :=
  if now.mode ≠ last.mode then
    1 + (if now.mode.voice then 1 else 0) +
      if now.mode.chanop then if now.opLevel ≠ maxOpLevel then levelDigits now.opLevel else 1 else 0
  else if now.mode.chanop ∧ now.opLevel ≠ last.opLevel then 1 + levelDigits (now.opLevel - last.opLevel)
  else 0

def nicksRoom (link : Link Client) (base : Status) (set : Bool) : NickState → NickState → List (List Char) → Nat
  | _, _, [] => 0
  | now, last, token :: tokens =>
    let next := nickFlags base set now token
    if isListed link token then
      (nickName token).length + 1 + flagsRoom last next +
        nicksRoom link base set next (lastWritten last next) tokens
    else nicksRoom link base set next last tokens

def paramBans (link : Link Client) (set : Bool) (step : BurstState Client × List Char) : List (List Char) :=
  if peek step.2 = '%' ∧ set then newBans link step.1.chan.banlist (strtok ' ' (step.2.drop 1)) else []

def bansRoom (bans : List (List Char)) : Nat := (bans.map fun ban => ban.length + 1).sum

def paramNicksRoom (link : Link Client) (set : Bool) (step : BurstState Client × List Char) : Nat :=
  if peek step.2 = '+' ∨ peek step.2 = '%' then 0
  else
    let base := baseMode (step.1.chan.mode.mode .delJoins)
    nicksRoom link base set ⟨base, -1⟩ ⟨base, 0⟩ (strtok ',' step.2)

/-- What `banstr` takes with the first three characters, of which a ban counts one. -/
def bansFill (banstr : List Char) : Nat := if banstr = [] then 2 else banstr.length

theorem bansFill_write (banstr ban : List Char) :
    bansFill (writeBan banstr ban) = bansFill banstr + (ban.length + 1) := by
  unfold bansFill writeBan
  by_cases first : banstr = []
  · subst first
    simp
    omega
  · simp [first]

theorem storeBans_fill (link : Link Client) (tokens : List (List Char)) (acc : List Ban × List Char) :
    bansFill (tokens.foldl (storeBan link) acc).2 = bansFill acc.2 + bansRoom (newBans link acc.1 tokens) := by
  induction tokens generalizing acc with
  | nil => rfl
  | cons token tokens ih =>
    rw [List.foldl_cons, ih, storeBan, newBans]
    dsimp only
    split
    · rw [bansFill_write, bansRoom, bansRoom, List.map_cons, List.sum_cons]
      omega
    · rfl

theorem specifier_length (last now : NickState) : (specifier last now).length = flagsRoom last now := by
  unfold specifier flagsRoom
  split
  · cases now.mode.voice <;> cases now.mode.chanop <;>
      simp [printUnsigned, levelDigits, apply_ite List.length] <;> omega
  · split
    · rw [List.length_cons, printUnsigned, levelDigits]
      omega
    · rfl

theorem storeNicks_length (link : Link Client) (base : Status) (set : Bool) (tokens : List (List Char))
    (w : NickWriter) : (tokens.foldl (storeNick link base set) w).nickstr.length =
      w.nickstr.length + nicksRoom link base set w.now w.last tokens := by
  induction tokens generalizing w with
  | nil => rfl
  | cons token tokens ih =>
    rw [List.foldl_cons, ih, storeNick, nicksRoom]
    split
    · simp only [List.length_append, List.length_cons, specifier_length]
      omega
    · rfl

theorem storeParam_room (link : Link Client) (set : Bool) (texts : BurstTexts)
    (step : BurstState Client × List Char) :
    bansFill (storeParam link set texts step).banstr = bansFill texts.banstr + bansRoom (paramBans link set step) ∧
      (storeParam link set texts step).nickstr.length =
        texts.nickstr.length + paramNicksRoom link set step := by
  unfold storeParam paramBans paramNicksRoom
  dsimp only
  by_cases plus : peek step.2 = '+'
  · have other : peek step.2 ≠ '%' := by
      rw [plus]
      decide
    simp [plus, bansRoom]
  by_cases percent : peek step.2 = '%'
  · cases set with
    | true => simp [percent, storeBans_fill]
    | false => simp [percent, bansRoom]
  · simp [plus, percent, storeNicks_length, bansRoom]

theorem bansRoom_append (bans more : List (List Char)) :
    bansRoom (bans ++ more) = bansRoom bans + bansRoom more := by
  simp [bansRoom]

theorem storeParams_room (link : Link Client) (set : Bool) (steps : List (BurstState Client × List Char))
    (texts : BurstTexts) :
    bansFill (steps.foldl (storeParam link set) texts).banstr =
        bansFill texts.banstr + bansRoom (steps.flatMap (paramBans link set)) ∧
      (steps.foldl (storeParam link set) texts).nickstr.length =
        texts.nickstr.length + (steps.map (paramNicksRoom link set)).sum := by
  induction steps generalizing texts with
  | nil => exact ⟨rfl, rfl⟩
  | cons step steps ih =>
    obtain ⟨bans, nicks⟩ := storeParam_room link set texts step
    obtain ⟨more_bans, more_nicks⟩ := ih (storeParam link set texts step)
    rw [List.foldl_cons, more_bans, more_nicks, bans, nicks, List.flatMap_cons, bansRoom_append, List.map_cons,
      List.sum_cons]
    omega

variable [DecidableEq Client]

def lineBans (link : Link Client) (chan : Option (Channel Client)) (parv : List (List Char)) : List (List Char) :=
  match burstStart link chan parv with
  | none => []
  | some (chan, timestamp, params) =>
    (lineSteps link chan timestamp params).flatMap (paramBans link (setsModes chan timestamp))

def lineNicksRoom (link : Link Client) (chan : Option (Channel Client)) (parv : List (List Char)) : Nat :=
  match burstStart link chan parv with
  | none => 0
  | some (chan, timestamp, params) =>
    ((lineSteps link chan timestamp params).map (paramNicksRoom link (setsModes chan timestamp))).sum

def BurstTexts.Fit (texts : BurstTexts) : Prop :=
  texts.nickstr.length + 1 ≤ bufSize ∧ texts.banstr.length + 1 ≤ bufSize

def userLink : Link Nat :=
  { world :=
      { findNUser := fun text => if text = ['A', 'A', 'A', 'A', 'A'] then some 0 else none
        banMask := id
        isIpMask := fun _ => false
        covers := fun _ _ => false
        now := 0 }
    behind := fun _ => true
    myUser := fun _ => false
    isAnOper := fun _ => false
    isAccount := fun _ => false
    mmatch := fun _ _ => false
    oplevels := true }

def burstPrefix : List Char := ['A', 'B', ' ', 'B', ' ', '#', 'c', ' ', '1', ' ']

def hostBans : List Char :=
  burstPrefix ++ ':' :: '%' ::
    List.intercalate [' '] ("abcdefgh".toList.map fun c => c :: List.replicate 58 'a' ++ ['.'])

def fallingLevels : List Char :=
  burstPrefix ++ List.intercalate [',']
    ((List.range 40).map fun n => "AAAAA:v".toList ++ Nat.toDigits 10 (99 - n))

def levelTokens : List (List Char) := (List.range 40).map fun n => "AAAAA:v".toList ++ Nat.toDigits 10 (99 - n)

theorem lineParams_fallingLevels :
    lineParams fallingLevels = [['#', 'c'], ['1'], [','].intercalate levelTokens] := by
  have levels : MiddleWord ([','].intercalate levelTokens) :=
    ⟨by decide +kernel, by decide +kernel, by decide +kernel⟩
  have middle : ∀ word ∈ [['#', 'c'], ['1'], [','].intercalate levelTokens], MiddleWord word := by
    intro word mem
    simp only [List.mem_cons, List.not_mem_nil, or_false] at mem
    rcases mem with rfl | rfl | rfl
    · exact ⟨by decide, by decide, by decide⟩
    · exact ⟨by decide, by decide, by decide⟩
    · exact levels
  have words (levels : List Char) : lineParams (burstPrefix ++ levels) =
      splitParams maxPara none ([['#', 'c'], ['1'], levels].flatMap (' ' :: ·)) := by
    rw [List.flatMap_cons, List.flatMap_cons, List.flatMap_cons, List.flatMap_nil, List.append_nil]
    rfl
  exact (words _).trans (splitParams_words maxPara middle (by decide))

theorem fallingLevels_overruns :
    bufSize < (burstTexts userLink.withMasks none (lineParams fallingLevels)).nickstr.length + 1 := by
  have tokens : strtok ',' ([','].intercalate levelTokens) = levelTokens :=
    strtok_intercalate (by decide +kernel) (by decide +kernel)
  have first : [','].intercalate levelTokens = 'A' :: ([','].intercalate levelTokens).tail := by decide +kernel
  have written (text : List Char) : (burstTexts userLink.withMasks none [['#', 'c'], ['1'], 'A' :: text]).nickstr =
      ((strtok ',' ('A' :: text)).foldl (storeNick userLink.withMasks (baseMode false) true)
        ⟨⟨baseMode false, -1⟩, ⟨baseMode false, 0⟩, []⟩).nickstr := rfl
  have room : 511 < nicksRoom userLink.withMasks (baseMode false) true ⟨baseMode false, -1⟩ ⟨baseMode false, 0⟩
      levelTokens := by
    decide +kernel
  rw [lineParams_fallingLevels, first, written, ← first, tokens, storeNicks_length]
  exact Nat.succ_lt_succ (Nat.lt_add_left 0 room)

theorem hostBans_overruns :
    bufSize < (burstTexts userLink.withMasks none (lineParams hostBans)).banstr.length + 1 := by
  decide +kernel

end Ircd.Channels
