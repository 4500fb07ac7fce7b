import Ircd.Library.Probing
import Ircd.Parse.Tokens

/-! The table of nick jupes of `hash.c`. -/

set_option autoImplicit false

namespace Ircd.Hash
open Ircd.Text Ircd.Library Ircd.Parse

def nickLen : Nat := 15

def jupeHashSize : Nat := 4096

def jupeMax : Nat := 64

def jupeListSize : Nat := 512

structure NickJupes where
  jupeTable : Nat → List Char
  jupesCount : Nat

def jupeSlot (jupeTable : Nat → List Char) (pos : Nat) : Option (List Char) :=
  if jupeTable pos = [] then none else some (jupeTable pos)

section
variable (crc32hash : Nat → Nat)

/-- The loop over the slots from the hash position of a nick on; `pos &= JUPEHASHMASK` is the remainder. -/
def seekJupe (jupeTable : Nat → List Char) (nick : List Char) : Option (Nat × Bool) :=
  probe jupeHashSize (jupeSlot jupeTable) (fun held => ircdStrcmp nick held = 0) jupeHashSize
    (strhash crc32hash nick)

def isNickJuped (j : NickJupes) (nick : List Char) : Option Bool :=
  if nick = [] then some false else (seekJupe crc32hash j.jupeTable nick).map (·.2)

/-- The loop of `addNickJupes` over the nicks of the list. -/
def addEach : List (List Char) → NickJupes → Option (Nat × NickJupes)
  | [], j => some (0, j)
  | one :: rest, j => do
    let (pos, juped) ← seekJupe crc32hash j.jupeTable one
    if juped then addEach rest j
    else if j.jupesCount = jupeMax then some (1, j)
    else addEach rest ⟨Function.update j.jupeTable pos (one.take nickLen), j.jupesCount + 1⟩

/-- `addNickJupes`: the list is taken apart in `temp`, which has room for `BUFSIZE` characters of it. -/
def addNickJupes (j : NickJupes) (nicks : CString) : Option (Nat × NickJupes) := do
  let temp := nicks.chars.take jupeListSize
  let list ← tokenTexts [','] (temp.length + 1) ⟨⟨[], temp ++ [nul]⟩, true⟩
  addEach crc32hash list j

/-- `clearNickJupes`, and the table of a server that has just started. -/
def clearNickJupes : NickJupes := ⟨fun _ => [], 0⟩

inductive JupeOp where
  | add (nicks : CString)
  | clear

def runJupes : List JupeOp → NickJupes → Option NickJupes
  | [], j => some j
  | .add nicks :: ops, j => do
    let (_, j) ← addNickJupes crc32hash j nicks
    runJupes ops j
  | .clear :: ops, _ => runJupes ops clearNickJupes

end

/-- The nicks that `addNickJupes` sees of a list. -/
def jupeNicks (nicks : CString) : List (List Char) := strtok ',' (nicks.chars.take jupeListSize)

/-- The nicks of the lists that were added since the last `clearNickJupes`, in their order. -/
def sinceClear (items : CString → List (List Char)) : List JupeOp → List (List Char) → List (List Char)
  | [], added => added
  | .add nicks :: ops, added => sinceClear items ops (added ++ items nicks)
  | .clear :: ops, _ => sinceClear items ops []

/-- A nick equal to `nick` was added while the table was not full. -/
def AddedBeforeFull (added : List (List Char)) (nick : List Char) : Prop :=
  ∃ front held rest, added = front ++ held :: rest ∧ foldSame held nick = true ∧
    (front.eraseDupsBy foldSame).length < jupeMax

def storedNicks (j : NickJupes) : List (List Char) := stored jupeHashSize (jupeSlot j.jupeTable)

/-- What a table that holds `kept` holds after some nicks more. -/
def firstNicks (kept added : List (List Char)) : List (List Char) :=
  (List.eraseDupsBy.loop foldSame added kept.reverse).take jupeMax

theorem firstNicks_nil {kept : List (List Char)} (room : kept.length ≤ jupeMax) : firstNicks kept [] = kept := by
  rw [firstNicks, List.eraseDupsBy.loop, List.reverse_reverse, List.take_of_length_le room]

theorem firstNicks_cons (kept added : List (List Char)) (nick : List Char) :
    firstNicks kept (nick :: added) = firstNicks (keep kept nick) added := by
  rw [firstNicks, eraseDupsBy_keep, firstNicks]

theorem firstNicks_full {kept : List (List Char)} (full : kept.length = jupeMax) (added : List (List Char)) :
    firstNicks kept added = kept := by
  rw [firstNicks, ← full, take_eraseDupsBy]

theorem length_keep {kept : List (List Char)} (room : kept.length < jupeMax) (nick : List Char) :
    (keep kept nick).length ≤ jupeMax := by
  unfold keep
  split
  · exact Nat.le_of_lt room
  · rw [List.length_append, List.length_singleton]
    exact room

theorem firstNicks_append {kept : List (List Char)} (room : kept.length ≤ jupeMax) (added more : List (List Char)) :
    firstNicks (firstNicks kept added) more = firstNicks kept (added ++ more) := by
  induction added generalizing kept with
  | nil => rw [firstNicks_nil room, List.nil_append]
  | cons nick added ih =>
    rcases Nat.lt_or_eq_of_le room with below | full
    · rw [firstNicks_cons, List.cons_append, firstNicks_cons, ih (length_keep below nick)]
    · rw [firstNicks_full full, firstNicks_full full, firstNicks_full full]

theorem foldSame_trans {a b c : List Char} (left : foldSame a b = true) (right : foldSame b c = true) :
    foldSame a c = true := by
  simp only [foldSame, decide_eq_true_eq] at *
  exact left.trans right

theorem foldSame_comm (a b : List Char) : foldSame a b = foldSame b a := by
  simp only [foldSame, eq_comm]

theorem any_keep (kept : List (List Char)) (nick other : List Char) :
    (∃ held ∈ keep kept nick, foldSame held other = true) ↔
      (∃ held ∈ kept, foldSame held other = true) ∨ foldSame nick other = true := by
  unfold keep
  split
  · rename_i repeated
    obtain ⟨twin, mem, same⟩ := List.any_eq_true.mp repeated
    refine ⟨.inl, fun found => found.elim id fun equal => ⟨twin, mem, ?_⟩⟩
    rw [foldSame_comm] at same
    exact foldSame_trans same equal
  · simp only [List.mem_append, List.mem_singleton]
    constructor
    · rintro ⟨held, mem | rfl, same⟩
      · exact .inl ⟨held, mem, same⟩
      · exact .inr same
    · rintro (⟨held, mem, same⟩ | same)
      · exact ⟨held, .inl mem, same⟩
      · exact ⟨nick, .inr rfl, same⟩

theorem length_eraseDupsBy (kept rest : List (List Char)) :
    kept.length ≤ (List.eraseDupsBy.loop foldSame rest kept.reverse).length := by
  have front := congrArg List.length (take_eraseDupsBy kept rest)
  rw [List.length_take] at front
  omega

theorem mem_firstNicks {kept : List (List Char)} (room : kept.length ≤ jupeMax) (added : List (List Char))
    (nick : List Char) :
    (∃ held ∈ firstNicks kept added, foldSame held nick = true) ↔
      (∃ held ∈ kept, foldSame held nick = true) ∨
        ∃ front held rest, added = front ++ held :: rest ∧ foldSame held nick = true ∧
          (List.eraseDupsBy.loop foldSame front kept.reverse).length < jupeMax := by
  induction added generalizing kept with
  | nil =>
    rw [firstNicks_nil room]
    refine ⟨.inl, fun found => found.elim id ?_⟩
    rintro ⟨front, held, rest, shape, -⟩
    exact absurd shape (by simp)
  | cons first added ih =>
    rcases Nat.lt_or_eq_of_le room with below | full
    · rw [firstNicks_cons, ih (length_keep below first), any_keep, or_assoc]
      refine or_congr_right ?_
      constructor
      · rintro (same | ⟨front, held, rest, rfl, same, fits⟩)
        · refine ⟨[], first, added, rfl, same, ?_⟩
          rwa [List.eraseDupsBy.loop, List.reverse_reverse]
        · exact ⟨first :: front, held, rest, rfl, same, by rwa [eraseDupsBy_keep]⟩
      · rintro ⟨front, held, rest, shape, same, fits⟩
        cases front with
        | nil =>
          obtain ⟨rfl, rfl⟩ := List.cons.inj shape
          exact .inl same
        | cons second front =>
          obtain ⟨rfl, rfl⟩ := List.cons.inj shape
          exact .inr ⟨front, held, rest, rfl, same, by rwa [eraseDupsBy_keep] at fits⟩
    · rw [firstNicks_full full]
      refine ⟨.inl, fun found => found.elim id ?_⟩
      rintro ⟨front, held, rest, -, -, fits⟩
      have := length_eraseDupsBy kept front
      omega

theorem addedBeforeFull_iff (added : List (List Char)) (nick : List Char) :
    AddedBeforeFull added nick ↔ ∃ held ∈ firstNicks [] added, foldSame held nick = true := by
  rw [mem_firstNicks (Nat.zero_le _)]
  constructor
  · exact .inr
  · rintro (⟨held, mem, -⟩ | found)
    · cases mem
    · exact found

structure JupeNick (nick : List Char) : Prop where
  some_nick : nick ≠ []
  clean : Clean nick
  short : nick.length ≤ nickLen

structure NickJupes.Holds (crc32hash : Nat → Nat) (j : NickJupes) (kept : List (List Char)) : Prop where
  probed : Probed jupeHashSize (strhash crc32hash) foldSame (jupeSlot j.jupeTable)
  entries : (storedNicks j).Perm kept
  count : j.jupesCount = kept.length
  room : kept.length ≤ jupeMax
  nicks : ∀ nick ∈ kept, JupeNick nick

section
variable {crc32hash : Nat → Nat} {j : NickJupes} {kept : List (List Char)}

theorem table_room : 0 < jupeHashSize := by decide

theorem clear_holds : clearNickJupes.Holds crc32hash [] := by
  have empty : jupeSlot clearNickJupes.jupeTable = fun _ => none := rfl
  refine ⟨?_, ?_, rfl, Nat.zero_le _, nofun⟩
  · rw [empty]
    exact probed_empty
  · rw [storedNicks, empty, stored_empty]

theorem strhash_foldSame {a b : List Char} (same : foldSame a b = true) :
    strhash crc32hash b = strhash crc32hash a := by
  rw [foldSame, decide_eq_true_eq] at same
  rw [← strhash_toLower crc32hash b, ← same, strhash_toLower]

theorem NickJupes.Holds.seek (holds : j.Holds crc32hash kept) {nick : List Char} (clean : Clean nick) :
    ∃ pos, seekJupe crc32hash j.jupeTable nick = some (pos, kept.any (foldSame nick)) ∧
      (kept.any (foldSame nick) = false → jupeSlot j.jupeTable pos = none ∧ pos < jupeHashSize ∧
        probe jupeHashSize (jupeSlot j.jupeTable) (foldSame nick) jupeHashSize (strhash crc32hash nick) =
          some (pos, false)) := by
  have member {held : List Char} : held ∈ stored jupeHashSize (jupeSlot j.jupeTable) ↔ held ∈ kept :=
    holds.entries.mem_iff
  have asked : seekJupe crc32hash j.jupeTable nick =
      probe jupeHashSize (jupeSlot j.jupeTable) (foldSame nick) jupeHashSize (strhash crc32hash nick) := by
    refine probe_congr table_room (fun i inside held there => ?_) _ _
    have old := holds.nicks held (member.mp (mem_stored.mpr ⟨i, inside, there⟩))
    rw [← Bool.coe_iff_coe, decide_eq_true_eq]
    exact ircdStrcmp_foldSame clean old.clean
  have few : (stored jupeHashSize (jupeSlot j.jupeTable)).length < jupeHashSize := by
    have := holds.entries.length_eq
    have := holds.room
    unfold storedNicks jupeHashSize jupeMax at *
    omega
  obtain ⟨i, inside, free⟩ := exists_free few
  obtain ⟨⟨pos, hit⟩, run⟩ := probe_ends inside free (foldSame nick) (strhash crc32hash nick)
  have answer : hit = kept.any (foldSame nick) := by
    cases hit with
    | true =>
      obtain ⟨below, held, there, same⟩ := probe_hit run table_room
      exact (List.any_eq_true.mpr ⟨held, member.mp (mem_stored.mpr ⟨pos, below, there⟩), same⟩).symm
    | false =>
      refine (List.any_eq_false.mpr fun held mem => ?_).symm
      have miss := holds.probed.absent (fun a same => strhash_foldSame same) run held (member.mpr mem)
      simp [miss]
  rw [asked, ← answer]
  refine ⟨pos, run, fun missed => ?_⟩
  rw [missed] at run
  obtain ⟨vacant, d, place, -⟩ := probe_free run
  exact ⟨vacant, place ▸ Nat.mod_lt _ table_room, run⟩

theorem jupeSlot_update {jupeTable : Nat → List Char} {nick : List Char} (some_nick : nick ≠ []) (pos : Nat) :
    jupeSlot (Function.update jupeTable pos nick) = Function.update (jupeSlot jupeTable) pos (some nick) := by
  funext i
  by_cases here : i = pos
  · subst here
    rw [jupeSlot, Function.update_self, Function.update_self, if_neg some_nick]
  · rw [jupeSlot, Function.update_of_ne here, Function.update_of_ne here, jupeSlot]

theorem NickJupes.Holds.addEach (holds : j.Holds crc32hash kept) {added : List (List Char)}
    (nicks : ∀ nick ∈ added, JupeNick nick) :
    ∃ code after, Hash.addEach crc32hash added j = some (code, after) ∧
      after.Holds crc32hash (firstNicks kept added) := by
  induction added generalizing j kept with
  | nil =>
    rw [firstNicks_nil holds.room]
    exact ⟨0, j, rfl, holds⟩
  | cons one added ih =>
    have nick := nicks one List.mem_cons_self
    have others : ∀ other ∈ added, JupeNick other := fun other mem => nicks other (List.mem_cons_of_mem _ mem)
    obtain ⟨pos, found, new⟩ := holds.seek nick.clean
    rw [firstNicks_cons, keep, Hash.addEach, found]
    simp only [Option.bind_eq_bind, Option.bind_some]
    cases juped : kept.any (foldSame one) with
    | true => exact ih holds others
    | false =>
      obtain ⟨vacant, inside, run⟩ := new juped
      simp only [Bool.false_eq_true, if_false]
      split
      · rename_i full
        rw [holds.count] at full
        refine ⟨1, j, rfl, ?_⟩
        have more := firstNicks_full full (one :: added)
        rw [firstNicks_cons, keep, juped, if_neg Bool.false_ne_true] at more
        rwa [more]
      · rename_i not_full
        refine ih ?_ others
        have room := holds.room
        rw [holds.count] at not_full
        have slots : jupeSlot (Function.update j.jupeTable pos one) = _ := jupeSlot_update nick.some_nick pos
        rw [List.take_of_length_le nick.short]
        refine ⟨?_, ?_, ?_, ?_, ?_⟩
        · rw [slots]
          exact holds.probed.insert (fun a => foldSame_comm a one) (fun a same => strhash_foldSame same) run
        · rw [storedNicks, slots]
          refine (stored_insert inside vacant one).trans ?_
          exact (List.Perm.cons one holds.entries).trans (List.perm_append_singleton one kept).symm
        · rw [List.length_append, List.length_singleton, holds.count]
        · rw [List.length_append, List.length_singleton]
          omega
        · intro other mem
          rcases List.mem_append.mp mem with mem | mem
          · exact holds.nicks other mem
          · rw [List.mem_singleton.mp mem]
            exact nick

theorem addNickJupes_eq (j : NickJupes) (nicks : CString) :
    addNickJupes crc32hash j nicks = Hash.addEach crc32hash (jupeNicks nicks) j := by
  have clean : nul ∉ nicks.chars.take jupeListSize := fun mem => nicks.nul_free (List.mem_of_mem_take mem)
  have comma : ',' ≠ nul := by decide
  rw [addNickJupes, tokenTexts_strtok comma _ _ [] [] (Nat.lt_succ_self _) clean]
  rfl

theorem jupeNicks_good {nicks : CString} (short : ∀ nick ∈ jupeNicks nicks, nick.length ≤ nickLen) :
    ∀ nick ∈ jupeNicks nicks, JupeNick nick := by
  intro nick mem
  obtain ⟨some_nick, inside⟩ := mem_strtok mem
  refine ⟨some_nick, ⟨fun bad => ?_, fun c here => ?_⟩, short nick mem⟩
  · exact nicks.nul_free (List.mem_of_mem_take (inside nul bad))
  · exact nicks.byte c (List.mem_of_mem_take (inside c here))

/-- A sequence of calls keeps the table filled with the first nicks since the last time it was cleared. -/
theorem NickJupes.Holds.run {ops : List JupeOp} {added : List (List Char)}
    (holds : j.Holds crc32hash (firstNicks [] added))
    (short : ∀ nicks, .add nicks ∈ ops → ∀ nick ∈ jupeNicks nicks, nick.length ≤ nickLen) :
    ∃ after, runJupes crc32hash ops j = some after ∧
      after.Holds crc32hash (firstNicks [] (sinceClear jupeNicks ops added)) := by
  induction ops generalizing j added with
  | nil => exact ⟨j, rfl, holds⟩
  | cons op ops ih =>
    have later : ∀ nicks, .add nicks ∈ ops → ∀ nick ∈ jupeNicks nicks, nick.length ≤ nickLen :=
      fun nicks mem => short nicks (List.mem_cons_of_mem _ mem)
    cases op with
    | add nicks =>
      obtain ⟨code, after, run, holds⟩ := holds.addEach (jupeNicks_good (short nicks List.mem_cons_self))
      rw [firstNicks_append (Nat.zero_le _)] at holds
      obtain ⟨last, runs, holds⟩ := ih holds later
      exact ⟨last, by simp only [runJupes, addNickJupes_eq, run, Option.bind_eq_bind, Option.bind_some, runs], holds⟩
    | clear =>
      have start : clearNickJupes.Holds crc32hash (firstNicks [] []) := clear_holds
      exact ih start later

/-- A nick is juped exactly if one equal to it up to case was added before the table was full, as far as the lists
fit the buffer, and the count is that of the nicks in the table. -/
theorem nick_jupes (crc32hash : Nat → Nat) (ops : List JupeOp)
    (short : ∀ nicks, .add nicks ∈ ops → ∀ nick ∈ jupeNicks nicks, nick.length ≤ nickLen) :
    ∃ j, runJupes crc32hash ops clearNickJupes = some j ∧
      (∀ nick : CString, ∃ juped, isNickJuped crc32hash j nick.chars = some juped ∧
        (juped = true ↔ AddedBeforeFull (sinceClear jupeNicks ops []) nick.chars)) ∧
      j.jupesCount = (storedNicks j).length ∧ (storedNicks j).Pairwise fun a b => foldSame a b = false := by
  have start : clearNickJupes.Holds crc32hash (firstNicks [] []) := clear_holds
  obtain ⟨j, run, holds⟩ := start.run short
  refine ⟨j, run, fun nick => ?_, holds.count.trans holds.entries.length_eq.symm, holds.probed.pairwise⟩
  rw [addedBeforeFull_iff]
  by_cases empty : nick.chars = []
  · refine ⟨false, if_pos empty, ⟨nofun, ?_⟩⟩
    rintro ⟨held, mem, same⟩
    rw [empty, foldSame, decide_eq_true_eq, List.map_nil, List.map_eq_nil_iff] at same
    exact absurd same (holds.nicks held mem).some_nick
  · obtain ⟨pos, found, -⟩ := holds.seek ⟨nick.nul_free, nick.byte⟩
    refine ⟨_, by rw [isNickJuped, if_neg empty, found]; rfl, ?_⟩
    rw [List.any_eq_true]
    exact exists_congr fun held => and_congr_right fun _ => by rw [foldSame_comm]

theorem one_nick_nul : nul ∉ ['a'] := by decide

theorem one_nick_bytes : ∀ c ∈ ['a'], c.toNat < 256 := by decide

theorem two_nicks_nul : nul ∉ ['x', ',', ',', 'Y'] := by decide

theorem two_nicks_bytes : ∀ c ∈ ['x', ',', ',', 'Y'], c.toNat < 256 := by decide

def twoLists : List JupeOp :=
  [.add ⟨['a'], one_nick_nul, one_nick_bytes⟩, .clear,
    .add ⟨['x', ',', ',', 'Y'], two_nicks_nul, two_nicks_bytes⟩]

theorem nick_jupes_two :
    (runJupes (fun _ => 0) twoLists clearNickJupes).bind (fun j => isNickJuped (fun _ => 0) j ['y']) = some true := by
  have short : ∀ nicks, .add nicks ∈ twoLists → ∀ nick ∈ jupeNicks nicks, nick.length ≤ nickLen := by
    intro nicks mem
    simp only [twoLists, List.mem_cons, JupeOp.add.injEq, List.not_mem_nil, or_false, reduceCtorEq, false_or] at mem
    rcases mem with rfl | rfl <;> decide +kernel
  obtain ⟨j, run, juped, -⟩ := nick_jupes (fun _ => 0) twoLists short
  obtain ⟨answer, asked, added⟩ := juped ⟨['y'], by decide, by decide⟩
  have there : AddedBeforeFull (sinceClear jupeNicks twoLists []) ['y'] :=
    ⟨[['x']], ['Y'], [], by decide +kernel, by decide +kernel, by decide⟩
  rw [run]
  exact asked.trans (congrArg some (added.mpr there))

theorem commas_clean : nul ∉ List.replicate jupeListSize ',' ++ ['x'] ∧
    ∀ c ∈ List.replicate jupeListSize ',' ++ ['x'], c.toNat < 256 := by
  constructor
  · simp only [List.mem_append, List.mem_replicate, List.mem_singleton]
    decide
  · intro c mem
    rcases List.mem_append.mp mem with mem | mem
    · rw [List.eq_of_mem_replicate mem]
      decide
    · rw [List.mem_singleton.mp mem]
      decide

def longList : CString := ⟨List.replicate jupeListSize ',' ++ ['x'], commas_clean.1, commas_clean.2⟩

theorem jupe_cut_off : ¬ ∀ ops : List JupeOp,
    (∀ nicks, .add nicks ∈ ops → ∀ nick ∈ strtok ',' nicks.chars, nick.length ≤ nickLen) →
    ∀ j, runJupes (fun _ => 0) ops clearNickJupes = some j → ∀ nick : CString,
      (isNickJuped (fun _ => 0) j nick.chars = some true ↔
        AddedBeforeFull (sinceClear (fun nicks => strtok ',' nicks.chars) ops []) nick.chars) := by
  intro claimed
  have commas : ∀ c ∈ List.replicate jupeListSize ',', c = ',' := fun c mem => List.eq_of_mem_replicate mem
  have whole : strtok ',' longList.chars = [['x']] := by
    rw [longList, strtok_seps commas]
    exact strtok_word nofun (by decide)
  have taken : jupeNicks longList = [] := by
    have front : longList.chars.take jupeListSize = List.replicate jupeListSize ',' ++ [] := by
      rw [longList, List.append_nil]
      exact List.take_left' List.length_replicate
    rw [jupeNicks, front, strtok_seps commas]
    rfl
  have run : runJupes (fun _ => 0) [.add longList] clearNickJupes = some clearNickJupes := by
    simp only [runJupes, addNickJupes_eq, taken, addEach, Option.bind_eq_bind, Option.bind_some]
  have found := claimed [.add longList] (fun nicks mem nick here => by
    obtain rfl : nicks = longList := by simpa using mem
    rw [whole, List.mem_singleton] at here
    rw [here]
    decide) clearNickJupes run ⟨['x'], by decide, by decide⟩
  have added : AddedBeforeFull (sinceClear (fun nicks => strtok ',' nicks.chars) [.add longList] []) ['x'] := by
    simp only [sinceClear, whole]
    exact ⟨[], ['x'], [], rfl, by decide, by decide⟩
  exact absurd (found.mpr added) (by decide)

end

end Ircd.Hash
