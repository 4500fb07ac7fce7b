import Ircd.Channels.BurstRuns

/-! A channel that is older wins: what its lines leave of a newer one.

The first line wipes out the flags and takes op and voice from everyone that it does not list;
the lines that follow have the timestamp of the channel and only add. A limit, a key and the passes
are merged as if the two sides were of one age.
-/

set_option autoImplicit false

namespace Ircd.Channels
open Ircd.Text

variable {Client : Type} [DecidableEq Client]

theorem mem_joins {entries : List (Entry Client)} {members : List (Membership Client)} {m : Membership Client}
    (mem : m ∈ entries.foldl joinMember members) : m.user ∈ entries.map (·.user) ∨ m ∈ members := by
  induction entries generalizing members with
  | nil => exact .inr mem
  | cons e entries ih =>
    rw [List.foldl_cons] at mem
    rcases ih mem with listed | before
    · exact .inl (List.mem_cons_of_mem e.user listed)
    · unfold joinMember at before
      split at before
      · obtain ⟨old, inside, shape⟩ := List.mem_map.mp before
        split at shape
        · rename_i same
          left
          rw [← shape]
          simp [same]
        · rw [← shape]
          exact .inr inside
      · rcases List.mem_cons.mp before with rfl | inside
        · exact .inl List.mem_cons_self
        · exact .inr inside

def OpsAmong (users : List Client) (chan : Channel Client) : Prop :=
  ∀ m ∈ chan.members, m.user ∈ users ∨ m.status.chanop = false ∧ m.status.voice = false

variable {link : Link Client} {s : Sender Client} {now : List (Membership Client)} {result : BurstState Client}

theorem Applied.wiped {first : Bool} {ready : Channel Client} (applied : Applied link s first now ready result)
    (wiped : wipedBy ready s.chan.creationTime = true) : OpsAmong (result.entries.map (·.user)) result.chan := by
  obtain ⟨mode, joins, banlist, _, rfl⟩ := applied
  intro m mem
  rw [wiped] at mem
  obtain ⟨joined, inside, rfl⟩ := List.mem_map.mp mem
  rcases mem_joins inside with listed | before
  · left
    split <;> exact listed
  · right
    obtain ⟨old, _, rfl⟩ := List.mem_map.mp before
    exact ⟨rfl, rfl⟩

/-- A line with the timestamp of the channel gives op and voice to those that it lists. -/
theorem Applied.added {first : Bool} {ready : Channel Client} (applied : Applied link s first now ready result)
    (equal : wipedBy ready s.chan.creationTime = false) {users : List Client} (among : OpsAmong users ready) :
    OpsAmong (users ++ result.entries.map (·.user)) result.chan := by
  obtain ⟨mode, joins, banlist, _, rfl⟩ := applied
  intro m mem
  rw [equal] at mem
  obtain ⟨joined, inside, rfl⟩ := List.mem_map.mp mem
  rw [Bool.and_false, if_neg Bool.false_ne_true]
  rcases mem_joins inside with listed | before
  · exact .inl (List.mem_append_right users listed)
  · obtain ⟨old, old_mem, rfl⟩ := List.mem_map.mp before
    rcases among old old_mem with known | plain
    · exact .inl (List.mem_append_left _ known)
    · exact .inr plain

def Yields (old new : List Char) : Prop := old = [] ∨ old = new ∨ new ≠ [] ∧ 0 < ircdStrcmp old new

theorem mergePass_yields {old new : List Char} (yields : Yields old new) : mergePass old new = new := by
  unfold mergePass
  rcases yields with rfl | rfl | ⟨some_new, later⟩
  · by_cases none : new = [] <;> simp [none]
  · by_cases none : old = [] <;> simp [none]
  · rw [if_neg some_new, if_neg (fun keeps => by omega)]

/-- The modes after the lines of an older channel, where its values win the merge. -/
structure OlderModes (old new result : Mode) : Prop where
  simple : ∀ f, f.simple = true → f ≠ .registered → result.mode f = new.mode f
  limit : new.limit ≠ 0 ∨ old.limit = 0 → result.limit = new.limit
  key : Yields old.key new.key → result.key = new.key
  apass : Yields old.apass new.apass → result.apass = new.apass
  upass : Yields old.upass new.upass → result.upass = new.upass

theorem Yields.origin {found ready new : List Char} (origin : ready = found ∨ ready = []) (yields : Yields found new) :
    Yields ready new := by
  rcases origin with rfl | rfl
  · exact yields
  · exact .inl rfl

theorem Applied.modes {found ready : Channel Client} (applied : Applied link s true now ready result)
    (origin : Origin found ready s.chan.creationTime) (wiped : wipedBy ready s.chan.creationTime = true) :
    OlderModes found.mode s.chan.mode result.chan.mode := by
  obtain ⟨mode, joins, banlist, merged, rfl⟩ := applied
  rw [wiped, if_pos rfl] at merged
  obtain ⟨flags, parameters⟩ := merged
  have cleared (f : Flag) (simple : f.simple = true) :
      (prepare true s.chan.creationTime ready).mode.mode f = false := by
    have other : (decide (f = .burstAdded) || decide (f = .wasDelJoins)) = false := by
      cases f <;> first | rfl | cases simple
    simp only [prepare, if_true]
    rw [other, Bool.and_false]
  have unlimited : (prepare true s.chan.creationTime ready).mode.mode .limit = false := by
    simp [prepare]
  refine ⟨?_, ?_, ?_, ?_, ?_⟩
  · intro f simple unregistered
    have not_limit : f ≠ .limit := by
      rintro rfl
      cases simple
    show mode.mode f = _
    rw [flags f not_limit, mergeSimple, simple, cleared f simple]
    simp [unregistered]
  · intro wins
    show mode.limit = _
    rw [parameters]
    simp only [mergeParameters, unlimited, mergeLimit, Bool.false_eq_true, false_and, if_false]
    split
    · rename_i none
      have zero : found.mode.limit = 0 := wins.resolve_left fun some_limit => some_limit none
      have same : (prepare true s.chan.creationTime ready).mode.limit = ready.mode.limit := rfl
      rw [same, none]
      rcases origin.limit with kept | gone
      · rw [kept, zero]
      · exact gone
    · rfl
  · intro yields
    show mode.key = _
    rw [parameters]
    exact mergePass_yields (yields.origin origin.key)
  · intro yields
    show mode.apass = _
    rw [parameters]
    exact mergePass_yields (yields.origin origin.apass)
  · intro yields
    show mode.upass = _
    rw [parameters]
    exact mergePass_yields (yields.origin origin.upass)

theorem Applied.same_modes {ready : Channel Client} (applied : Applied link s false now ready result)
    (equal : ready.creationTime = s.chan.creationTime) (not_wiped : wipedBy ready s.chan.creationTime = false) :
    result.chan.mode = ready.mode := by
  have low := s.time_pos
  obtain ⟨mode, joins, banlist, same, rfl⟩ := applied
  rw [not_wiped, if_neg Bool.false_ne_true] at same
  show mode = ready.mode
  rw [same]
  simp only [prepare, Bool.false_eq_true, if_false]
  rw [if_neg (by omega)]

theorem receiveLines_later {first : Bool} {lines : List (List Char)} {members : List (Membership Client)}
    {bans : List Ban} (texts : LineTexts link s first lines members bans) (later : first = false)
    {c : Channel Client} (equal : c.creationTime = s.chan.creationTime) {users : List Client}
    (among : OpsAmong users c) : ∃ last, (receiveLines link (some c) lines).1 = some last ∧ last.mode = c.mode ∧
      OpsAmong (users ++ (receiveLines link (some c) lines).2.map (·.user)) last := by
  induction texts generalizing c users with
  | last written =>
    subst later
    obtain ⟨params, split, good⟩ := written.params
    obtain ⟨not_wiped, result, read, applied⟩ := msBurst_equal good equal
    simp only [receiveLines, split, read, List.append_nil]
    exact ⟨result.chan, rfl, applied.same_modes equal not_wiped, applied.added not_wiped among⟩
  | more written busy rest ih =>
    subst later
    obtain ⟨params, split, good⟩ := written.params
    obtain ⟨not_wiped, result, read, applied⟩ := msBurst_equal good equal
    obtain ⟨last, reached, same, among_last⟩ := ih rfl applied.time (applied.added not_wiped among)
    simp only [receiveLines, split, read, List.map_append]
    refine ⟨last, reached, same.trans (applied.same_modes equal not_wiped), ?_⟩
    rw [← List.append_assoc]
    exact among_last

/-- A channel without modes, members and bans, a few seconds older than one that has members: the
newer one is left as it is. -/
def Zannel (s : Sender Client) (chan : Option (Channel Client)) : Prop :=
  (channelModes forServer s.chan.mode).1.length ≤ 1 ∧ s.chan.members = [] ∧ s.chan.banlist = [] ∧
    ∃ found, chan = some found ∧ found.creationTime ≤ s.chan.creationTime + 4 ∧ found.members ≠ []

def IsOlder (s : Sender Client) (chan : Option (Channel Client)) : Prop :=
  ∀ found, chan = some found → found.creationTime = 0 ∨ s.chan.creationTime < found.creationTime

omit [DecidableEq Client] in
theorem IsOlder.times {chan : Option (Channel Client)} (older : IsOlder s chan) {params : List (List Char)} (believable : params = [] → ∀ found, chan = some found →
      ¬ (found.creationTime ≤ s.chan.creationTime + 4 ∧ found.members ≠ [])) :
    burstTimes (chan.getD newChannel) s.chan.creationTime params = (s.chan.creationTime, (chan.getD newChannel).creationTime) := by
  cases chan with
  | none => rfl
  | some found =>
    rw [Option.getD_some]
    unfold burstTimes
    rcases older found rfl with new | newer
    · rw [if_pos new]
    · split
      · rfl
      · split
        · rename_i none
          rw [if_neg fun zannel => believable none found rfl zannel.2]
        · rw [if_neg (by omega)]

omit [DecidableEq Client] in
theorem IsOlder.wiped {chan : Option (Channel Client)} (older : IsOlder s chan) :
    wipedBy (chan.getD newChannel) s.chan.creationTime = true := by
  cases chan with
  | none => rfl
  | some found =>
    have newer := older found rfl
    simp only [wipedBy, Option.getD_some, Bool.or_eq_true, decide_eq_true_eq]
    omega

theorem msBurst_older {put : List Ban} {params : List (List Char)} (good : LineParams link s true now put params)
    {chan : Option (Channel Client)} (older : IsOlder s chan) (believable : params = [] → ∀ found, chan = some found →
      ¬ (found.creationTime ≤ s.chan.creationTime + 4 ∧ found.members ≠ [])) :
    ∃ result : BurstState Client, msBurst link chan (s.chname :: Nat.toDigits 10 s.chan.creationTime.toNat :: params) =
        (some result.chan, result.entries) ∧ result.chan.creationTime = s.chan.creationTime ∧
      OlderModes (chan.getD newChannel).mode s.chan.mode result.chan.mode ∧
      OpsAmong (result.entries.map (·.user)) result.chan := by
  have times := older.times believable
  have wiped := older.wiped
  have believed : Believed (chan.getD newChannel) s.chan.creationTime params := by
    simp only [Believed, times]
    refine ⟨trivial, ?_⟩
    simp only [wipedBy, Bool.or_eq_true, decide_eq_true_eq] at wiped
    omega
  obtain ⟨found, ready, result, shape, read, applied, origin, _⟩ := msBurst_believed good believed
  rw [times] at shape
  have here : found = chan.getD newChannel := shape
  rw [here] at origin
  have wins := origin.wiped wiped
  exact ⟨result, read, applied.time, applied.modes origin wins, applied.wiped wins⟩

/-- The lines of an older channel: the flags are its own, and so are the limit, the key and the
passes where they win the merge; op and voice are left to the users that the lines list. -/
theorem older_timestamp_wins (link : Link Client) (qsort : Qsort Client) (s : Sender Client) (chan : Option (Channel Client))
    (older : IsOlder s chan) (some_channel : ¬ Zannel s chan) {fuel : Nat}
    (enough : s.chan.members.length + s.chan.banlist.length < fuel) :
    ∃ lines last, sendChannelModes qsort s fuel = some lines ∧ (receiveLines link chan lines).1 = some last ∧
      OlderModes (chan.getD newChannel).mode s.chan.mode last.mode ∧
      ∀ m ∈ last.members, m.user ∉ (receiveLines link chan lines).2.map (·.user) →
        m.status.chanop = false ∧ m.status.voice = false := by
  have order := order_perm qsort s
  obtain ⟨lines, sent, texts⟩ := sendLines_texts link qsort fuel true (start_underway qsort s) rfl (Nat.zero_le 4)
    (fun _ mem => mem) (by
      show (s.order qsort).length + s.chan.banlist.length < fuel
      rw [order.length_eq]
      exact enough)
  suffices reached : ∃ last, (receiveLines link chan lines).1 = some last ∧
      OlderModes (chan.getD newChannel).mode s.chan.mode last.mode ∧
      OpsAmong ((receiveLines link chan lines).2.map (·.user)) last by
    obtain ⟨last, read, modes, among⟩ := reached
    exact ⟨lines, last, sent, read, modes, fun m mem unlisted => (among m mem).resolve_left unlisted⟩
  have texts : LineTexts link s true lines (s.order qsort) s.chan.banlist := texts
  generalize s.order qsort = members, all_bans : s.chan.banlist = bans at order texts
  cases texts with
  | last written =>
    obtain ⟨params, split, good⟩ := written.params
    have believable : params = [] → ∀ found, chan = some found →
        ¬ (found.creationTime ≤ s.chan.creationTime + 4 ∧ found.members ≠ []) := by
      rintro none found ours ⟨close, some_member⟩
      have no_member : members = [] := by
        by_contra some_now
        exact good.some_param (.inl some_now) none
      have no_ban : bans = [] := by
        by_contra some_put
        exact good.some_param (.inr some_put) none
      rw [no_member] at order
      exact some_channel ⟨good.nothing none rfl, order.nil_eq.symm, all_bans.trans no_ban, found, ours, close, some_member⟩
    obtain ⟨result, read, _, modes, among⟩ := msBurst_older good older believable
    simp only [receiveLines, split, read, List.append_nil]
    exact ⟨result.chan, rfl, modes, among⟩
  | more written busy rest =>
    obtain ⟨params, split, good⟩ := written.params
    obtain ⟨result, read, time, modes, among⟩ :=
      msBurst_older good older fun none => absurd none (good.some_param busy)
    obtain ⟨last, reached, same, among_last⟩ := receiveLines_later rest rfl time among
    simp only [receiveLines, split, read, List.map_append]
    refine ⟨last, reached, ?_, among_last⟩
    rw [same]
    exact modes

def newerChannel : Channel Nat := ⟨9, ⟨.none, 4, [], [], []⟩, [⟨2, ⟨true, false, false, false, false, false, false, false⟩, 0⟩], []⟩

theorem older_timestamp_wins_pair : ∃ lines last, sendChannelModes mergeQsort pairSender 3 = some lines ∧
    (receiveLines pairLink (some newerChannel) lines).1 = some last ∧
    OlderModes ((some newerChannel).getD newChannel).mode pairSender.chan.mode last.mode ∧
    ∀ m ∈ last.members, m.user ∉ (receiveLines pairLink (some newerChannel) lines).2.map (·.user) →
      m.status.chanop = false ∧ m.status.voice = false := by
  refine older_timestamp_wins pairLink mergeQsort pairSender (some newerChannel) ?_ ?_ (by decide)
  · rintro found ⟨rfl⟩
    exact .inr (by decide)
  · rintro ⟨_, none, _⟩
    cases none

def emptySender : Sender Nat where
  server := ['A', 'B']
  chname := ['#', 'c']
  numnick _ := []
  chan := ⟨7, ⟨.none, 0, [], [], []⟩, [], []⟩
  server_short := pairSender.server_short
  server_word := pairSender.server_word
  chname_short := pairSender.chname_short
  chname_global := pairSender.chname_global
  chname_word := pairSender.chname_word
  time_pos := by decide
  time_lt := by decide
  valid := ⟨by decide, by decide, .inl rfl, .inl rfl, .inl rfl, fun _ => nofun⟩
  nodup := by decide
  numnicks _ := nofun
  levels _ := nofun
  bans _ := nofun

theorem zannel_keeps_op : IsOlder emptySender (some newerChannel) ∧
    ∃ lines last, sendChannelModes mergeQsort emptySender 1 = some lines ∧
      (receiveLines pairLink (some newerChannel) lines).1 = some last ∧
      ∃ m ∈ last.members, m.user ∉ (receiveLines pairLink (some newerChannel) lines).2.map (·.user) ∧
        m.status.chanop = true := by
  have sorted : (mergeQsort : Qsort Nat).sort [] = [] := by simp [mergeQsort]
  refine ⟨?_, [['A', 'B', ' ', 'B', ' ', '#', 'c', ' ', '7']], newerChannel, ?_, ?_, _, List.mem_singleton_self _, ?_, rfl⟩
  · rintro found ⟨rfl⟩
    exact .inr (by decide)
  · have none_put : putPasses mergeQsort emptySender.numnick [] 4 emptySender.start ⟨emptySender.header ++ emptySender.modes, true⟩ =
        (false, ⟨4, [], [], true, 0, false⟩, ⟨emptySender.header ++ emptySender.modes, true⟩) := by
      simp [putPasses, putMembers, Cursor.nextPass, Sender.start, emptySender, sorted]
    show sendLines mergeQsort emptySender 1 true emptySender.start [] = _
    simp only [sendLines, if_true]
    rw [show putPasses mergeQsort emptySender.numnick emptySender.chan.members (4 - emptySender.start.flagCnt) _ _ = _ from none_put]
    decide
  · rfl
  · decide

end Ircd.Channels
