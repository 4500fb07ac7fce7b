import Ircd.Channels.SourceModes
import Ircd.Channels.Timestamps

/-! `ms_burst`, the wipe of `ms_join` and the bounce of `ms_destruct`, with the mode buffers they fill. -/

set_option autoImplicit false

namespace Ircd.Channels
open Ircd.Text

variable {Client : Type}

def burstSourceFlags (set wipeout : Bool) : SourceFlags := ⟨burstParseFlags set wipeout, false, false, false⟩

def startBurst (site : ModeSite Client) (wipeout : Bool) (timestamp : Int) (chan : Channel Client) :
    ModeWork Client :=
  let mbuf := modebufInit site.me site.localChannel { Dest.none with channel := true, noKey := true }
  let mbuf := if wipeout then modebufMode mbuf false chan.mode.mode else mbuf
  ⟨prepare wipeout timestamp chan, mbuf, []⟩

def burstWork [DecidableEq Client] (site : ModeSite Client) (source : ModeSource Client) (set wipeout : Bool) :
    Nat → ModeWork Client → List (List Char) → ModeWork Client
  | 0, w, _ => w
  | _, w, [] => w
  | fuel + 1, w, param :: rest =>
    if peek param = '+' then
      let st := (parseModes site source (burstSourceFlags set wipeout) w param rest).1
      burstWork site source set wipeout fuel st.work st.args
    else if peek param = '%' then
      let banlist := if set then readBans site.toLink w.chan.banlist param else w.chan.banlist
      burstWork site source set wipeout fuel { w with chan := { w.chan with banlist := banlist } } rest
    else
      let entries := readNicks site.toLink (baseMode (w.chan.mode.mode .delJoins)) set param
      let members := entries.foldl joinMember w.chan.members
      burstWork site source set wipeout fuel { w with chan := { w.chan with members := members } } rest

def burstMember (names : Names Client) (wipeout : Bool) (w : ModeWork Client) (m : Membership Client) :
    ModeWork Client :=
  let told (add : Bool) (mode : MemberMode) (w : ModeWork Client) := w.client names add mode m.user m.opLevel
  if m.status.burstJoined then
    let w := if m.status.chanop && !m.status.alreadyOpped then told true .chanop w else w
    if m.status.voice && !m.status.alreadyVoiced then told true .voice w else w
  else if wipeout then
    let w := if m.status.chanop then told false .chanop w else w
    if m.status.voice then told false .voice w else w
  else w

def burstBan (names : Names Client) (w : ModeWork Client) (ban : Ban) : ModeWork Client :=
  if ban.flags.overlapped || ban.flags.burstWipeout then w.string names false .ban ban.banstr true
  else if ban.flags.bursted then w.string names true .ban ban.banstr false
  else w

/-- The end of `ms_burst`; what is told is read before the marks are cleaned up. -/
def endBurst (names : Names Client) (wipeout : Bool) (w : ModeWork Client) : ModeWork Client :=
  let w := w.chan.members.foldl (burstMember names wipeout) w
  let w := w.chan.banlist.foldl (burstBan names) w
  { w with chan := cleanUp true wipeout w.chan }

/-- `ms_burst` behind the check for net riders. -/
def readBurstModes [DecidableEq Client] (site : ModeSite Client) (source : ModeSource Client) (chan : Channel Client)
    (timestamp : Int) (params : List (List Char)) : Option (ModeWork Client) :=
  let wipeout : Bool := chan.creationTime = 0 || chan.creationTime > timestamp
  let set : Bool := wipeout || chan.creationTime = timestamp
  let w := burstWork site source set wipeout params.length (startBurst site wipeout timestamp chan) params
  if set then (endBurst site.names wipeout w).call site.names .flush else some w

/-- `ms_burst`, for the channel that the line names. -/
def msBurstModes [DecidableEq Client] (site : ModeSite Client) (source : ModeSource Client)
    (chan : Option (Channel Client)) (parv : List (List Char)) : Option (Option (Channel Client)) :=
  match parv with
  | name :: ts :: params =>
    if isChannelName name then
      let found := chan.getD newChannel
      let times := burstTimes found (atoi ts) params
      let found := { found with creationTime := times.2 }
      let read (chan : Channel Client) := (readBurstModes site source chan times.1 params).map fun w => some w.chan
      if found.creationTime = 0 ∨ found.creationTime > times.1 then
        match netRide site.toLink found params with
        | .error gone => some gone
        | .ok left => read (left.getD newChannel)
      else read found
    else some chan
  | _ => some chan

def dropModes (names : Names Client) (w : ModeWork Client) (m : Membership Client) : ModeWork Client :=
  let w := if m.status.chanop then w.client names false .chanop m.user m.opLevel else w
  if m.status.voice then w.client names false .voice m.user m.opLevel else w

def dropString (names : Names Client) (which : StringMode) (text : List Char) (w : ModeWork Client) :
    ModeWork Client :=
  if text ≠ [] then w.string names false which text false else w

def dropLimit (names : Names Client) (limit : Nat) (w : ModeWork Client) : ModeWork Client :=
  if limit ≠ 0 then w.uint names false limit else w

/-- The part of `ms_join` that copies a creation time and wipes the modes out. -/
def resetModes (site : ModeSite Client) (sptr : Client) (creation : Int) (chan : Channel Client) :
    Option (Channel Client) :=
  if creation ≠ 0 ∧ (creation < chan.creationTime ∨ chan.mode.apass = [] ∧ chan.members = []) then do
    let mbuf := modebufInit sptr site.localChannel { Dest.none with channel := true, hack3 := true }
    let mbuf := modebufMode mbuf false chan.mode.mode
    let kept : Flags := fun f => chan.mode.mode f && (f = .burstAdded || f = .wasDelJoins)
    let w : ModeWork Client := ⟨{ chan.setFlags kept with creationTime := creation }, mbuf, []⟩
    let w := dropLimit site.names chan.mode.limit w
    let w := dropString site.names .key chan.mode.key w
    let w := dropString site.names .upass chan.mode.upass w
    let w := dropString site.names .apass chan.mode.apass w
    let w := chan.members.foldl (dropModes site.names) w
    let members := chan.members.map fun m => { m with status := { m.status with chanop := false, voice := false } }
    let mode : Mode := ⟨w.chan.mode.mode, 0, [], [], []⟩
    let w ← ModeWork.call site.names { w with chan := { w.chan with mode := mode, members := members } } .flush
    some w.chan
  else some chan

/-- The part of `ms_destruct` about a channel that is not empty: all that it has is sent back. -/
def bounceModes (site : ModeSite Client) (sptr : Client) (chan : Channel Client) : Option (ModeWork Client) :=
  let mbuf := modebufInit sptr site.localChannel { Dest.none with server := true, bounce := true }
  let told (w : ModeWork Client) (m : Membership Client) :=
    let w := if m.status.chanop then w.client site.names false .chanop m.user m.opLevel else w
    if m.status.voice then w.client site.names false .voice m.user (maxOpLevel + 1) else w
  let w := chan.members.foldl told ⟨chan, mbuf, []⟩
  let w := w.flags false w.chan.mode.mode
  let w := dropString site.names .key chan.mode.key w
  let w := dropLimit site.names chan.mode.limit w
  let w := dropString site.names .upass chan.mode.upass w
  let w := dropString site.names .apass chan.mode.apass w
  let w := chan.banlist.foldl (fun w ban => w.string site.names false .ban ban.banstr false) w
  w.call site.names .flush

end Ircd.Channels
