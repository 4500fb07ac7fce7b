import Ircd.Channels.BurstLines

/-! All the lines of a channel, from `send_channel_modes` to `ms_burst`.

Every line has some of the members, so the lines come to an end; read in their order they list
every member once.
-/

set_option autoImplicit false

namespace Ircd.Channels
open Ircd.Text Ircd.Numnicks

variable {Client : Type} [DecidableEq Client]

inductive LineTexts (link : Link Client) (s : Sender Client) :
    Bool → List (List Char) → List (Membership Client) → List Ban → Prop where
  | last {first : Bool} {line : List Char} {now : List (Membership Client)} {put : List Ban}
      (written : LineText link s first line now put) : LineTexts link s first [line] now put
  | more {first : Bool} {line : List Char} {lines : List (List Char)} {now later : List (Membership Client)}
      {put bans : List Ban} (written : LineText link s first line now put) (busy : now ≠ [] ∨ put ≠ [])
      (rest : LineTexts link s false lines later bans) : LineTexts link s first (line :: lines) (now ++ later) (put ++ bans)

omit [DecidableEq Client] in
theorem length_start (s : Sender Client) (first : Bool) : (s.header ++ if first then s.modes else []).length ≤ 344 := by
  have header := length_header s
  have modes := length_modes s
  have start : (if first then s.modes else []).length ≤ 118 := by split <;> simp [modes]
  rw [List.length_append]
  omega

omit [DecidableEq Client] in
theorem Written.start (link : Link Client) (s : Sender Client) {mb : List Char} (short : mb.length ≤ 344) :
    Written link s mb ⟨mb, true⟩ [] (fun base => ⟨base, -1⟩) [] :=
  ⟨by simp [nickText], rfl, fun _ => rfl, fun _ => nofun, rfl, Nat.le_trans short (by decide)⟩

variable {s : Sender Client}

omit [DecidableEq Client] in
theorem sendLines_texts (link : Link Client) (qsort : Qsort Client) (fuel : Nat) (first : Bool)
    {cur : Cursor Client} {bans : List Ban} (under : Underway qsort s cur cur.member) (restarts : Restarts cur)
    (pass : cur.flagCnt ≤ 4) (known : ∀ ban ∈ bans, ban ∈ s.chan.banlist)
    (enough : (s.left qsort cur.flagCnt cur.member).length + bans.length < fuel) :
    ∃ lines, sendLines qsort s fuel first cur bans = some lines ∧
      LineTexts link s first lines (s.left qsort cur.flagCnt cur.member) bans := by
  induction fuel generalizing first cur bans with
  | zero => omega
  | succ fuel ih =>
    have short := length_start s first
    obtain ⟨full, cur', line, now, run, result, pass', left, ended⟩ :=
      putPasses_written (4 - cur.flagCnt) (by omega) under restarts.inStep (Written.start link s short)
    obtain ⟨⟨tokens, st, written, _⟩, under', filled⟩ := result
    rw [List.nil_append] at written
    have nicks : tokens.length = now.length ∧
        ∀ base, ∃ st, tokens.foldl (readNick link base true) (⟨base, -1⟩, []) = (st, now.filterMap (heard link s base)) :=
      ⟨written.count, fun base => ⟨st base, written.read base⟩⟩
    have line_text := written.text
    -- a line without nicks has room for one more and for a ban
    have empty (none : now = []) : line.mb.length ≤ 344 := by
      have no_token : tokens = [] := List.length_eq_zero_iff.mp (by rw [written.count, none]; rfl)
      rw [line_text, no_token]
      simpa [nickText] using short
    cases full with
    | true =>
      obtain ⟨restarts', tight⟩ := filled rfl
      have some_now : now ≠ [] := by
        intro none
        have room := empty none
        simp only [bufleft, lineLen] at tight
        omega
      have fewer : (s.left qsort cur'.flagCnt cur'.member).length < (s.left qsort cur.flagCnt cur.member).length := by
        have positive := List.length_pos_iff.mpr some_now
        rw [left, List.length_append]
        omega
      obtain ⟨lines, sent, texts⟩ := ih false under' restarts' pass' known (by omega)
      refine ⟨line.mb :: lines, ?_, ?_⟩
      · simp only [sendLines, run, if_true, sent, Option.map_some]
      · rw [left]
        have here : LineText link s first line.mb now [] :=
          ⟨written.fits, tokens, by simpa using line_text, written.words, nicks⟩
        exact .more here (.inl some_now) texts
    | false =>
      obtain ⟨four, shape⟩ := ended rfl
      have restarts' : Restarts cur' := by
        rcases shape with new | ⟨rfl, _⟩
        · rw [Restarts, new, four]
          rfl
        · exact restarts
      have none_left : s.left qsort cur'.flagCnt cur'.member = [] := by rw [four]; rfl
      obtain ⟨put, split, text, fits, some_put⟩ := putBans_line bans written.fits
      rw [none_left, List.append_nil] at left
      have here : LineText link s first (putBans true bans line.mb).2 now put := by
        refine ⟨fits, tokens, ?_, written.words, nicks⟩
        rw [text, line_text]
      by_cases all : (putBans true bans line.mb).1 = []
      · refine ⟨[(putBans true bans line.mb).2], ?_, ?_⟩
        · simp only [sendLines, run, Bool.false_eq_true, if_false]
          rw [if_pos all]
        · have whole := LineTexts.last here
          rw [all, List.append_nil] at split
          rw [← split] at whole
          rw [left]
          exact whole
      · have busy : now ≠ [] ∨ put ≠ [] := by
          by_cases none : now = []
          · refine .inr (some_put ?_ (fun ban mem => s.bans ban (known ban mem)) (empty none))
            rintro rfl
            exact all rfl
          · exact .inl none
        have fewer : 0 < now.length + put.length := by
          rcases busy with some_now | some_ban
          · have := List.length_pos_iff.mpr some_now
            omega
          · have := List.length_pos_iff.mpr some_ban
            omega
        have total := congrArg List.length split
        rw [List.length_append] at total
        have later : ∀ ban ∈ (putBans true bans line.mb).1, ban ∈ s.chan.banlist := by
          intro ban mem
          apply known
          rw [split]
          exact List.mem_append_right put mem
        obtain ⟨lines, sent, texts⟩ := ih false under' restarts' pass' later (by
          rw [none_left]
          rw [left] at enough
          simp only [List.length_nil]
          omega)
        refine ⟨(putBans true bans line.mb).2 :: lines, ?_, ?_⟩
        · simp only [sendLines, run, Bool.false_eq_true, if_false]
          rw [if_neg all, sent]
          rfl
        · rw [none_left] at texts
          have whole := LineTexts.more here busy texts
          rw [← split, List.append_nil] at whole
          rw [left]
          exact whole

omit [DecidableEq Client] in
theorem start_underway (qsort : Qsort Client) (s : Sender Client) : Underway qsort s s.start s.start.member := by
  refine ⟨fun _ mem => mem, fun _ => ⟨rfl, rfl⟩, nofun, nofun, nofun, nofun, nofun⟩

def Sender.order (qsort : Qsort Client) (s : Sender Client) : List (Membership Client) := s.left qsort 0 s.chan.members

omit [DecidableEq Client] in
theorem halves_perm (members : List (Membership Client)) (op : Bool) :
    ((members.filter fun m => (m.status.chanop, m.status.voice) = (op, false)) ++
      members.filter fun m => (m.status.chanop, m.status.voice) = (op, true)).Perm
        (members.filter (·.status.chanop = op)) := by
  have without : (members.filter fun m => (m.status.chanop, m.status.voice) = (op, false)) =
      (members.filter (·.status.chanop = op)).filter (!·.status.voice) := by
    rw [List.filter_filter]
    apply List.filter_congr
    intro m _
    cases m.status.voice <;> simp
  have with_voice : (members.filter fun m => (m.status.chanop, m.status.voice) = (op, true)) =
      (members.filter (·.status.chanop = op)).filter (·.status.voice) := by
    rw [List.filter_filter]
    apply List.filter_congr
    intro m _
    cases m.status.voice <;> simp
  rw [without, with_voice]
  exact List.perm_append_comm.trans (List.filter_append_perm _ _)

omit [DecidableEq Client] in
theorem order_perm (qsort : Qsort Client) (s : Sender Client) : (s.order qsort).Perm s.chan.members := by
  have plain : (inPass 0 s.chan.members ++ inPass 1 s.chan.members).Perm (s.chan.members.filter (·.status.chanop = false)) :=
    halves_perm s.chan.members false
  have ops : (inPass 2 (s.ops qsort) ++ inPass 3 (s.ops qsort)).Perm (s.chan.members.filter (·.status.chanop = true)) := by
    have sorted : (s.ops qsort).Perm (s.chan.members.filter (·.status.chanop)) := qsort.perm _
    have both := (halves_perm (s.ops qsort) true).trans (sorted.filter _)
    rw [List.filter_filter] at both
    exact both.trans (.of_eq (List.filter_congr fun m _ => by simp))
  have whole : s.order qsort = (inPass 0 s.chan.members ++ inPass 1 s.chan.members) ++
      (inPass 2 (s.ops qsort) ++ inPass 3 (s.ops qsort)) := by
    rw [Sender.order, Sender.left, List.append_assoc]
  rw [whole]
  refine (plain.append ops).trans (List.perm_append_comm.trans ?_)
  have split := List.filter_append_perm (fun m : Membership Client => m.status.chanop = true) s.chan.members
  simpa using split

/-- The lines of a server, read one after the other: the channel and the users that were listed. -/
def receiveLines (link : Link Client) : Option (Channel Client) → List (List Char) → Option (Channel Client) × List (Entry Client)
  | chan, [] => (chan, [])
  | chan, line :: lines =>
    let here := msBurst link chan (lineParams (sentLine line))
    let rest := receiveLines link here.1 lines
    (rest.1, here.2 ++ rest.2)

/-- A server that does not know the channel, or has one that is not older; an empty channel takes
a timestamp that is a few seconds newer. -/
def Accepts (chan : Option (Channel Client)) (timestamp : Int) : Prop :=
  ∀ found, chan = some found → found.creationTime = 0 ∨ timestamp ≤ found.creationTime ∨
    found.members = [] ∧ timestamp ≤ found.creationTime + 4

omit [DecidableEq Client] in
theorem atoi_time (s : Sender Client) : atoi (Nat.toDigits 10 s.chan.creationTime.toNat) = s.chan.creationTime := by
  have low := s.time_pos
  have high := s.time_lt
  rw [atoi_digits, asInt]
  split <;> omega

def Believed (found : Channel Client) (timestamp : Int) (params : List (List Char)) : Prop :=
  (burstTimes found timestamp params).1 = timestamp ∧
    ((burstTimes found timestamp params).2 = 0 ∨ timestamp ≤ (burstTimes found timestamp params).2)

structure Origin (found ready : Channel Client) (timestamp : Int) : Prop where
  members : ∀ m ∈ ready.members, m ∈ found.members
  limit : ready.mode.limit = found.mode.limit ∨ ready.mode.limit = 0
  key : ready.mode.key = found.mode.key ∨ ready.mode.key = []
  apass : ready.mode.apass = found.mode.apass ∨ ready.mode.apass = []
  upass : ready.mode.upass = found.mode.upass ∨ ready.mode.upass = []
  wiped : wipedBy found timestamp = true → wipedBy ready timestamp = true

omit [DecidableEq Client] in
theorem netrideModes_some {modes : List Char} (plain : '-' ∉ modes) (currKey : List Char) (check : RideCheck)
    (args : List (List Char)) : ∃ result, netrideModes currKey check modes args = some result := by
  induction modes generalizing check args with
  | nil => exact ⟨check, rfl⟩
  | cons c modes ih =>
    have here : c ≠ '-' := fun same => plain (same ▸ List.mem_cons_self)
    have behind : '-' ∉ modes := fun mem => plain (List.mem_cons_of_mem c mem)
    unfold netrideModes
    rw [if_neg here]
    repeat' split
    all_goals exact ih behind _ _

omit [DecidableEq Client] in
theorem Origin.refl (found : Channel Client) (timestamp : Int) : Origin found found timestamp :=
  ⟨fun _ mem => mem, .inl rfl, .inl rfl, .inl rfl, .inl rfl, fun wiped => wiped⟩

omit [DecidableEq Client] in
theorem Origin.new (found : Channel Client) (timestamp : Int) : Origin found newChannel timestamp :=
  ⟨fun _ => nofun, .inr rfl, .inr rfl, .inr rfl, .inr rfl, fun _ => rfl⟩

omit [DecidableEq Client] in
theorem dropMembers_origin (gone : Membership Client → Bool) (chan : Channel Client) (timestamp : Int) :
    Origin chan (dropMembers gone chan) timestamp := by
  have fewer : ∀ m ∈ chan.members.filter (fun m => !gone m), m ∈ chan.members := fun m mem => (List.mem_filter.mp mem).1
  unfold dropMembers checkDelayedJoins
  dsimp only
  split
  · split
    · exact ⟨fewer, .inl rfl, .inl rfl, .inl rfl, .inl rfl, fun wiped => wiped⟩
    · exact ⟨fewer, .inl rfl, .inl rfl, .inl rfl, .inl rfl, fun wiped => wiped⟩
  · exact ⟨fewer, .inl rfl, .inl rfl, .inl rfl, .inl rfl, fun wiped => wiped⟩

omit [DecidableEq Client] in
theorem lastGone_origin (oplevels : Bool) {found chan : Channel Client} {timestamp : Int}
    (origin : Origin found chan timestamp) : Origin found ((lastGone oplevels chan).getD newChannel) timestamp := by
  unfold lastGone
  dsimp only
  split
  · split
    · exact ⟨fun _ => nofun, .inr rfl, .inr rfl, origin.apass, origin.upass, origin.wiped⟩
    · exact .new found timestamp
  · exact ⟨fun _ => nofun, .inr rfl, origin.key, origin.apass, origin.upass, origin.wiped⟩

variable {first : Bool} {now : List (Membership Client)} {params : List (List Char)}

theorem netRide_origin (link : Link Client) {put : List Ban} (good : LineParams link s first now put params)
    (found : Channel Client) (timestamp : Int) :
    ∃ left, netRide link found params = .ok left ∧ Origin found (left.getD newChannel) timestamp := by
  unfold netRide
  rcases good.modes with none | ⟨args, some_modes⟩
  · rw [none]
    exact ⟨some found, rfl, .refl found timestamp⟩
  · have plain : '-' ∉ (channelModes forServer s.chan.mode).1 :=
      fun minus => channelModes_letters s.chan.mode '-' minus (by decide)
    obtain ⟨check, checked⟩ := netrideModes_some plain found.mode.key ⟨false, false, false⟩ args
    rw [some_modes]
    dsimp only
    rw [checked]
    refine ⟨_, rfl, ?_⟩
    unfold kickNetRiders
    split
    · exact .refl found timestamp
    · split
      · exact lastGone_origin link.oplevels (dropMembers_origin _ found timestamp)
      · exact dropMembers_origin _ found timestamp

variable {link : Link Client} {chan : Option (Channel Client)}

theorem msBurst_believed {put : List Ban} (good : LineParams link s first now put params)
    (believed : Believed (chan.getD newChannel) s.chan.creationTime params) :
    ∃ found ready result, found = { chan.getD newChannel with
        creationTime := (burstTimes (chan.getD newChannel) s.chan.creationTime params).2 } ∧
      msBurst link chan (s.chname :: Nat.toDigits 10 s.chan.creationTime.toNat :: params) =
        (some result.chan, result.entries) ∧ Applied link s first now ready result ∧
      Origin found ready s.chan.creationTime ∧ (wipedBy found s.chan.creationTime = false → ready = found) := by
  obtain ⟨same, not_older⟩ := believed
  have channel : isChannelName s.chname = true := by simp [isChannelName, s.chname_global]
  simp only [msBurst, channel, if_true, atoi_time]
  generalize burstTimes (chan.getD newChannel) s.chan.creationTime params = times at same not_older ⊢
  obtain ⟨received, created⟩ := times
  dsimp only at same not_older ⊢
  subst same
  by_cases wiped : created = 0 ∨ created > s.chan.creationTime
  · rw [if_pos wiped]
    obtain ⟨left, rode, origin⟩ := netRide_origin link good { chan.getD newChannel with creationTime := created } s.chan.creationTime
    have wins : wipedBy (left.getD newChannel) s.chan.creationTime = true := by
      apply origin.wiped
      simpa [wipedBy] using wiped
    rw [rode]
    refine ⟨_, left.getD newChannel, _, rfl, rfl, good.applied _ ?_, origin, fun equal => ?_⟩
    · simp only [wipedBy, Bool.or_eq_true, decide_eq_true_eq] at wins
      omega
    · simp only [wipedBy, Bool.or_eq_false_iff, decide_eq_false_iff_not] at equal
      omega
  · rw [if_neg wiped]
    exact ⟨_, { chan.getD newChannel with creationTime := created }, _, rfl, rfl, good.applied _ not_older, .refl _ _, fun _ => rfl⟩

theorem msBurst_nothing (link : Link Client) (chan : Option (Channel Client)) (name ts : List Char) :
    (msBurst link chan [name, ts]).2 = [] := by
  unfold msBurst
  dsimp only
  split
  · split <;> rfl
  · rfl

omit [DecidableEq Client] in
theorem Accepts.believed {timestamp : Int} (accepts : Accepts chan timestamp) (some_param : params ≠ []) :
    Believed (chan.getD newChannel) timestamp params := by
  cases chan with
  | none => exact ⟨rfl, .inl rfl⟩
  | some found =>
    have older := accepts found rfl
    simp only [Believed, burstTimes, Option.getD_some, some_param, if_false]
    split
    · rename_i new
      exact ⟨rfl, .inl new⟩
    · split
      · exact ⟨rfl, .inr (Int.le_refl _)⟩
      · refine ⟨rfl, .inr ?_⟩
        dsimp only
        rename_i _ not_empty
        by_cases none : found.members = []
        · simp only [none, and_true] at not_empty older
          omega
        · simp only [none, false_and, or_false] at older
          omega

variable {ready : Channel Client} {result : BurstState Client}

theorem Applied.time (applied : Applied link s first now ready result) :
    result.chan.creationTime = s.chan.creationTime := by
  obtain ⟨mode, joins, banlist, _, rfl⟩ := applied
  rfl

/-- What a reader learns of a user: op, voice and the level of an op. -/
def Membership.listed (m : Membership Client) : Client × Bool × Bool × Option Int :=
  (m.user, m.status.chanop, m.status.voice, if m.status.chanop then some (m.opLevel : Int) else none)

def Entry.listed (e : Entry Client) : Client × Bool × Bool × Option Int :=
  (e.user, e.mode.chanop, e.mode.voice, if e.mode.chanop then some e.opLevel else none)

def wireEntry (joins : Bool) (m : Membership Client) : Entry Client :=
  ⟨m.user, wireMode (baseMode joins) (m.status.chanop, m.status.voice), wireLevel m⟩

omit [DecidableEq Client] in
theorem wireEntry_listed (joins : Bool) (m : Membership Client) : (wireEntry joins m).listed = m.listed := by
  cases op : m.status.chanop <;> cases voice : m.status.voice <;>
    simp [wireEntry, Entry.listed, Membership.listed, wireMode, wireLevel, op, voice, baseMode, Status.opped, Status.voiced]

/-- The server at the other end knows the members and has them behind this connection. -/
def Knows (link : Link Client) (s : Sender Client) : Prop :=
  ∀ m ∈ s.chan.members, link.world.findNUser (s.numnick m.user) = some m.user ∧ link.behind m.user = true

omit [DecidableEq Client] in
theorem Knows.heard (knows : Knows link s) (known : ∀ m ∈ now, m ∈ s.chan.members) (joins : Bool) :
    now.filterMap (heard link s (baseMode joins)) = now.map (wireEntry joins) := by
  induction now with
  | nil => rfl
  | cons m now ih =>
    obtain ⟨found, behind⟩ := knows m (known m List.mem_cons_self)
    have here : Channels.heard link s (baseMode joins) m = some (wireEntry joins m) := by
      simp [Channels.heard, found, behind, Option.filter, wireEntry]
    rw [List.filterMap_cons_some here, ih fun m mem => known m (List.mem_cons_of_mem _ mem), List.map_cons]

theorem Applied.known (knows : Knows link s) (applied : Applied link s first now ready result)
    (known : ∀ m ∈ now, m ∈ s.chan.members) :
    ∃ mode joins banlist, result = ⟨cleanUp true (wipedBy ready s.chan.creationTime) ⟨s.chan.creationTime, mode,
      (now.map (wireEntry joins)).foldl joinMember
        (prepare (wipedBy ready s.chan.creationTime) s.chan.creationTime ready).members, banlist⟩,
      now.map (wireEntry joins)⟩ := by
  obtain ⟨mode, joins, banlist, _, shape⟩ := applied
  refine ⟨mode, joins, banlist, ?_⟩
  rw [shape, knows.heard known]

theorem Applied.entries (knows : Knows link s) (applied : Applied link s first now ready result)
    (known : ∀ m ∈ now, m ∈ s.chan.members) :
    result.entries.map Entry.listed = now.map Membership.listed := by
  obtain ⟨mode, joins, banlist, rfl⟩ := applied.known knows known
  rw [List.map_map]
  exact List.map_congr_left fun m _ => wireEntry_listed joins m

variable {members : List (Membership Client)}

theorem receiveLines_entries {lines : List (List Char)} {bans : List Ban} (knows : Knows link s)
    (texts : LineTexts link s first lines members bans) (known : ∀ m ∈ members, m ∈ s.chan.members)
    (accepts : Accepts chan s.chan.creationTime) :
    (receiveLines link chan lines).2.map Entry.listed = members.map Membership.listed := by
  induction texts generalizing chan with
  | @last first line now put written =>
    obtain ⟨params, split, good⟩ := written.params
    simp only [receiveLines, List.append_nil, split]
    by_cases none : params = []
    · have nobody : now = [] := by
        by_contra some_now
        exact good.some_param (.inl some_now) none
      rw [none, nobody, msBurst_nothing]
      rfl
    · obtain ⟨_, ready, result, _, read, applied, _⟩ := msBurst_believed good (accepts.believed none)
      rw [read]
      exact applied.entries knows known
  | @more first line lines now later put bans written busy rest ih =>
    obtain ⟨params, split, good⟩ := written.params
    obtain ⟨_, ready, result, _, read, applied, _⟩ := msBurst_believed good (accepts.believed (good.some_param busy))
    have again : Accepts (some result.chan) s.chan.creationTime := by
      rintro found ⟨rfl⟩
      exact .inr (.inl (by rw [applied.time]))
    simp only [receiveLines, split, read, List.map_append,
      ih (fun m mem => known m (List.mem_append_right now mem)) again,
      applied.entries knows fun m mem => known m (List.mem_append_left later mem)]

def findMember (members : List (Membership Client)) (user : Client) : Option (Membership Client) :=
  members.find? (·.user = user)

theorem findMember_map {f : Membership Client → Membership Client} (same : ∀ m, (f m).user = m.user)
    (members : List (Membership Client)) (user : Client) :
    findMember (members.map f) user = (findMember members user).map f := by
  rw [findMember, List.find?_map]
  have keeps : ((fun m : Membership Client => decide (m.user = user)) ∘ f) = fun m => decide (m.user = user) := by
    funext m
    simp [same]
  rw [keeps]
  rfl

theorem findMember_join_other {e : Entry Client} {user : Client} (other : user ≠ e.user) :
    findMember (joinMember members e) user = findMember members user := by
  unfold joinMember
  split
  · rw [findMember_map fun m => by split <;> rfl]
    cases found : findMember members user with
    | none => rfl
    | some m =>
      have here : m.user = user := by simpa using List.find?_some found
      rw [Option.map_some, if_neg (by rw [here]; exact other)]
  · rw [findMember, List.find?_cons_of_neg (by simpa using other.symm)]
    rfl

theorem findMember_join_self {e : Entry Client} (absent : findMember members e.user = none) :
    findMember (joinMember members e) e.user = some ⟨e.user, e.mode, storedLevel e.opLevel⟩ := by
  have nobody : members.any (·.user = e.user) = false := by
    rw [List.any_eq_false]
    exact List.find?_eq_none.mp absent
  rw [joinMember, nobody, if_neg Bool.false_ne_true, findMember, List.find?_cons_of_pos (by simp)]

theorem findMember_joins_other (entries : List (Entry Client)) {user : Client}
    (other : ∀ e ∈ entries, e.user ≠ user) :
    findMember (entries.foldl joinMember members) user = findMember members user := by
  induction entries generalizing members with
  | nil => rfl
  | cons e entries ih =>
    have here : user ≠ e.user := (other e List.mem_cons_self).symm
    rw [List.foldl_cons, ih fun e' mem => other e' (List.mem_cons_of_mem e mem), findMember_join_other here]

theorem findMember_joins {entries : List (Entry Client)} (nodup : (entries.map (·.user)).Nodup) {e : Entry Client}
    (mem : e ∈ entries) (absent : findMember members e.user = none) :
    findMember (entries.foldl joinMember members) e.user = some ⟨e.user, e.mode, storedLevel e.opLevel⟩ := by
  induction entries generalizing members with
  | nil => cases mem
  | cons first entries ih =>
    rw [List.map_cons, List.nodup_cons] at nodup
    rw [List.foldl_cons]
    rcases List.mem_cons.mp mem with rfl | behind
    · rw [findMember_joins_other entries, findMember_join_self absent]
      intro other inside same
      exact nodup.1 (same ▸ List.mem_map_of_mem inside)
    · have differs : e.user ≠ first.user := fun same => nodup.1 (same ▸ List.mem_map_of_mem behind)
      exact ih nodup.2 behind ((findMember_join_other differs).trans absent)

def HasMember (chan : Channel Client) (m : Membership Client) : Prop :=
  (findMember chan.members m.user).map Membership.listed = some m.listed

theorem prepare_find (wiped : Bool) (timestamp : Int) (chan : Channel Client) (user : Client) :
    findMember (prepare wiped timestamp chan).members user =
      (findMember chan.members user).map fun m => { m with status := m.status.unjoined } := by
  have members : (prepare wiped timestamp chan).members = chan.members.map fun m => { m with status := m.status.unjoined } := by
    unfold prepare
    dsimp only
    split <;> rfl
  rw [members]
  apply findMember_map
  exact fun _ => rfl

theorem cleanUp_find (wiped : Bool) (chan : Channel Client) (user : Client) :
    findMember (cleanUp true wiped chan).members user = (findMember chan.members user).map fun m =>
      if !m.status.burstJoined && wiped then { m with status := m.status.wiped } else m :=
  findMember_map (fun m => by split <;> rfl) chan.members user

variable {m : Membership Client}

omit [DecidableEq Client] in
theorem stored_listed (mem : m ∈ s.chan.members) (joins : Bool) :
    Membership.listed ⟨m.user, (wireEntry joins m).mode, storedLevel (wireEntry joins m).opLevel⟩ =
      m.listed := by
  have same := wireEntry_listed joins m
  cases op : m.status.chanop with
  | false =>
    simp only [Entry.listed, Membership.listed, op, Prod.mk.injEq] at same ⊢
    obtain ⟨_, not_op, voice, _⟩ := same
    simp [not_op, voice]
  | true =>
    have level := s.levels m mem op
    have stored : storedLevel (wireEntry joins m).opLevel = m.opLevel := by
      have bound : maxOpLevel = 999 := rfl
      simp only [wireEntry, wireLevel, op, if_true, storedLevel]
      omega
    simp only [Entry.listed, Membership.listed, op, Prod.mk.injEq] at same ⊢
    obtain ⟨_, opped, voice, _⟩ := same
    simp [opped, voice, stored]

theorem Applied.joined (knows : Knows link s) (applied : Applied link s first now ready result)
    (known : ∀ m ∈ now, m ∈ s.chan.members) (nodup : (now.map (·.user)).Nodup) (mem : m ∈ now)
    (absent : findMember ready.members m.user = none) :
    HasMember result.chan m := by
  obtain ⟨mode, joins, banlist, rfl⟩ := applied.known knows known
  have users : ((now.map (wireEntry joins)).map (·.user)).Nodup := by
    rw [List.map_map]
    exact nodup
  have nobody : findMember (prepare (wipedBy ready s.chan.creationTime) s.chan.creationTime ready).members m.user = none := by
    rw [prepare_find, absent]
    rfl
  have joined := findMember_joins users (List.mem_map_of_mem mem) nobody
  have marked : (wireEntry joins m).mode.burstJoined = true := by
    cases op : m.status.chanop <;> cases voice : m.status.voice <;>
      simp [wireEntry, wireMode, op, voice, baseMode, Status.opped, Status.voiced]
  rw [HasMember, cleanUp_find]
  dsimp only
  have user : (wireEntry joins m).user = m.user := rfl
  rw [← user, joined, Option.map_some, Option.map_some, marked]
  exact congrArg some (stored_listed (known m mem) joins)

theorem Applied.kept (knows : Knows link s) (applied : Applied link s first now ready result)
    (known : ∀ m ∈ now, m ∈ s.chan.members) (equal : wipedBy ready s.chan.creationTime = false)
    (unlisted : m.user ∉ now.map (·.user)) (has : HasMember ready m) : HasMember result.chan m := by
  obtain ⟨mode, joins, banlist, rfl⟩ := applied.known knows known
  have others : ∀ e ∈ now.map (wireEntry joins), e.user ≠ m.user := by
    intro e mem same
    obtain ⟨listed, inside, rfl⟩ := List.mem_map.mp mem
    exact unlisted (List.mem_map.mpr ⟨listed, inside, same⟩)
  rw [HasMember, cleanUp_find, findMember_joins_other _ others, prepare_find, equal, Option.map_map, Option.map_map]
  rw [HasMember] at has
  rw [← has]
  congr 1

omit [DecidableEq Client] in
theorem burstTimes_equal (s : Sender Client) {c : Channel Client} (equal : c.creationTime = s.chan.creationTime)
    (params : List (List Char)) : burstTimes c s.chan.creationTime params = (s.chan.creationTime, s.chan.creationTime) := by
  have low := s.time_pos
  unfold burstTimes
  rw [equal, if_neg (by omega)]
  split
  · rw [if_neg (by omega)]
  · rw [if_neg (by omega)]

theorem msBurst_equal {put : List Ban} (good : LineParams link s first now put params) {c : Channel Client}
    (equal : c.creationTime = s.chan.creationTime) :
    wipedBy c s.chan.creationTime = false ∧ ∃ result,
      msBurst link (some c) (s.chname :: Nat.toDigits 10 s.chan.creationTime.toNat :: params) =
        (some result.chan, result.entries) ∧ Applied link s first now c result := by
  have low := s.time_pos
  have not_wiped : wipedBy c s.chan.creationTime = false := by
    simp only [wipedBy, Bool.or_eq_false_iff, decide_eq_false_iff_not]
    omega
  have times := burstTimes_equal s equal params
  have believed : Believed ((some c).getD newChannel) s.chan.creationTime params := by
    simp only [Believed, Option.getD_some, times]
    exact ⟨trivial, .inr (Int.le_refl _)⟩
  obtain ⟨found, ready, result, shape, read, applied, _, same⟩ := msBurst_believed good believed
  have here : found = c := by
    rw [shape, Option.getD_some, times, ← equal]
  rw [here] at same
  rw [same not_wiped] at applied
  exact ⟨not_wiped, result, read, applied⟩

theorem receiveLines_kept {lines : List (List Char)} {bans : List Ban} (knows : Knows link s)
    (texts : LineTexts link s first lines members bans) (known : ∀ m ∈ members, m ∈ s.chan.members)
    {c : Channel Client} (equal : c.creationTime = s.chan.creationTime) (unlisted : m.user ∉ members.map (·.user))
    (has : HasMember c m) : ∃ last, (receiveLines link (some c) lines).1 = some last ∧ HasMember last m := by
  induction texts generalizing c with
  | last written =>
    obtain ⟨params, split, good⟩ := written.params
    obtain ⟨not_wiped, result, read, applied⟩ := msBurst_equal good equal
    simp only [receiveLines, split, read]
    exact ⟨result.chan, rfl, applied.kept knows known not_wiped unlisted has⟩
  | @more first line lines now later put bans written busy rest ih =>
    rw [List.map_append, List.mem_append, not_or] at unlisted
    obtain ⟨params, split, good⟩ := written.params
    obtain ⟨not_wiped, result, read, applied⟩ := msBurst_equal good equal
    simp only [receiveLines, split, read]
    exact ih (fun m mem => known m (List.mem_append_right now mem)) applied.time unlisted.2
      (applied.kept knows (fun m mem => known m (List.mem_append_left later mem)) not_wiped unlisted.1 has)

theorem Origin.absent {found : Channel Client} {timestamp : Int} (origin : Origin found ready timestamp)
    {user : Client} (absent : findMember found.members user = none) : findMember ready.members user = none := by
  rw [findMember, List.find?_eq_none] at absent ⊢
  exact fun m mem => absent m (origin.members m mem)

theorem Applied.absent (knows : Knows link s) (applied : Applied link s first now ready result)
    (known : ∀ m ∈ now, m ∈ s.chan.members) {user : Client} (unlisted : user ∉ now.map (·.user))
    (absent : findMember ready.members user = none) :
    findMember result.chan.members user = none := by
  obtain ⟨mode, joins, banlist, rfl⟩ := applied.known knows known
  have others : ∀ e ∈ now.map (wireEntry joins), e.user ≠ user := by
    rintro e mem rfl
    obtain ⟨listed, inside, rfl⟩ := List.mem_map.mp mem
    exact unlisted (List.mem_map_of_mem inside)
  rw [cleanUp_find, findMember_joins_other _ others, prepare_find, absent]
  rfl

theorem receiveLines_members {lines : List (List Char)} {bans : List Ban} (knows : Knows link s)
    (texts : LineTexts link s first lines members bans) (accepts : Accepts chan s.chan.creationTime)
    (nodup : (members.map (·.user)).Nodup) (known : ∀ m ∈ members, m ∈ s.chan.members) (mem : m ∈ members)
    (absent : findMember (chan.getD newChannel).members m.user = none) :
    ∃ last, (receiveLines link chan lines).1 = some last ∧ HasMember last m := by
  induction texts generalizing chan with
  | @last first line now put written =>
    obtain ⟨params, split, good⟩ := written.params
    have some_param := good.some_param (.inl (List.ne_nil_of_mem mem))
    obtain ⟨found, ready, result, shape, read, applied, origin, _⟩ := msBurst_believed good (accepts.believed some_param)
    have nobody : findMember found.members m.user = none := by
      rw [shape]
      exact absent
    simp only [receiveLines, split, read]
    exact ⟨result.chan, rfl, applied.joined knows known nodup mem (origin.absent nobody)⟩
  | @more first line lines now later put bans written busy rest ih =>
    rw [List.map_append, List.nodup_append] at nodup
    obtain ⟨nodup_now, nodup_later, disjoint⟩ := nodup
    obtain ⟨params, split, good⟩ := written.params
    obtain ⟨found, ready, result, shape, read, applied, origin, _⟩ :=
      msBurst_believed good (accepts.believed (good.some_param busy))
    have nobody : findMember found.members m.user = none := by
      rw [shape]
      exact absent
    simp only [receiveLines, split, read]
    have known_now : ∀ m ∈ now, m ∈ s.chan.members := fun m mem => known m (List.mem_append_left later mem)
    have known_later : ∀ m ∈ later, m ∈ s.chan.members := fun m mem => known m (List.mem_append_right now mem)
    rcases List.mem_append.mp mem with here | behind
    · have unlisted : m.user ∉ later.map (·.user) := fun again =>
        disjoint m.user (List.mem_map_of_mem here) m.user again rfl
      exact receiveLines_kept knows rest known_later applied.time unlisted
        (applied.joined knows known_now nodup_now here (origin.absent nobody))
    · have unlisted : m.user ∉ now.map (·.user) := fun before =>
        disjoint m.user before m.user (List.mem_map_of_mem behind) rfl
      apply ih _ nodup_later known_later behind
      · exact applied.absent knows known_now unlisted (origin.absent nobody)
      · rintro found ⟨rfl⟩
        exact .inr (.inl (by rw [applied.time]))

/-- The lines of a channel list every member once, with the same op, voice and level, and a server
that did not have these users on the channel has them after the lines. -/
theorem members_reproduced (link : Link Client) (qsort : Qsort Client) (s : Sender Client) (chan : Option (Channel Client))
    (knows : Knows link s) (accepts : Accepts chan s.chan.creationTime) {fuel : Nat}
    (enough : s.chan.members.length + s.chan.banlist.length < fuel) :
    ∃ lines, sendChannelModes qsort s fuel = some lines ∧
      ((receiveLines link chan lines).2.map Entry.listed).Perm (s.chan.members.map Membership.listed) ∧
      ∀ m ∈ s.chan.members, findMember (chan.getD newChannel).members m.user = none →
        ∃ last, (receiveLines link chan lines).1 = some last ∧ HasMember last m := by
  have order := order_perm qsort s
  obtain ⟨lines, sent, texts⟩ := sendLines_texts link qsort fuel true (start_underway qsort s) rfl (Nat.zero_le 4)
    (fun _ mem => mem) (by
      show (s.order qsort).length + s.chan.banlist.length < fuel
      rw [order.length_eq]
      exact enough)
  refine ⟨lines, sent, ?_, ?_⟩
  · rw [receiveLines_entries knows texts (fun m mem => order.mem_iff.mp mem) accepts]
    exact order.map Membership.listed
  · intro m mem absent
    exact receiveLines_members knows texts accepts ((order.map _).nodup_iff.mpr s.nodup) (fun m mem => order.mem_iff.mp mem)
      (order.mem_iff.mpr mem) absent

def pairSender : Sender Nat where
  server := ['A', 'B']
  chname := ['#', 'c']
  numnick n := if n = 0 then ['A', 'B', 'A', 'A', 'A'] else ['A', 'B', 'A', 'A', 'B']
  chan :=
    { creationTime := 7
      mode := ⟨.only .secret, 0, [], [], []⟩
      members := [⟨0, ⟨true, false, false, false, false, false, false, false⟩, 5⟩,
        ⟨1, ⟨false, true, false, true, false, false, false, false⟩, 0⟩]
      banlist := [] }
  server_short := by decide
  server_word := by decide
  chname_short := by decide
  chname_global := by decide
  chname_word := by decide
  time_pos := by decide
  time_lt := by decide
  valid := ⟨by decide, by decide, .inl rfl, .inl rfl, .inl rfl, fun _ => nofun⟩
  nodup := by decide
  numnicks m mem := by
    simp only [List.mem_cons, List.not_mem_nil, or_false] at mem
    rcases mem with rfl | rfl <;> exact ⟨by decide, by decide, by decide⟩
  levels := by decide
  bans := by decide

def pairLink : Link Nat :=
  ⟨⟨fun text => if text = ['A', 'B', 'A', 'A', 'A'] then some 0 else if text = ['A', 'B', 'A', 'A', 'B'] then some 1 else none,
    id, fun _ => false, fun _ _ => false, 0⟩, fun _ => true, fun _ => false, fun _ => false, fun _ => false, fun _ _ => false, true⟩

theorem pairLink_knows : Knows pairLink pairSender := by
  intro m mem
  simp only [pairSender, List.mem_cons, List.not_mem_nil, or_false] at mem
  rcases mem with rfl | rfl <;> exact ⟨by decide, rfl⟩

theorem members_reproduced_pair : ∃ lines, sendChannelModes mergeQsort pairSender 3 = some lines ∧
    ((receiveLines pairLink none lines).2.map Entry.listed).Perm (pairSender.chan.members.map Membership.listed) ∧
    ∀ m ∈ pairSender.chan.members, findMember (none.getD newChannel).members m.user = none →
      ∃ last, (receiveLines pairLink none lines).1 = some last ∧ HasMember last m :=
  members_reproduced pairLink mergeQsort pairSender none pairLink_knows (fun _ => nofun) (by decide)

end Ircd.Channels
