import Ircd.Silences.Silence

/-! What `forward_silences` leaves, loop by loop.

The updates that are read are linked behind the old silences. The check of the limits cuts the
chain where the first of them does not fit; the last loop takes out what is marked.
-/

set_option autoImplicit false

namespace Ircd.Silences

open Ircd.Channels Ircd.Library

structure Linked (s : Memory) (l : List Ptr) : Prop where
  chain : Chain s.next s.silence l
  nodup : l.Nodup
  made : ∀ p ∈ l, p < s.made

section
variable {s s' : Memory} {l : List Ptr}

theorem Linked.length_le (linked : Linked s l) : l.length ≤ s.made := by
  have inside : l ⊆ List.range s.made := fun p mem => List.mem_range.mpr (linked.made p mem)
  have short := (linked.nodup.subperm inside).length_le
  rwa [List.length_range] at short

theorem Linked.list (linked : Linked s l) : s.list = l := linked.chain.walk linked.length_le

theorem Linked.congr (linked : Linked s l) (head : s'.silence = s.silence) (same : ∀ p ∈ l, s'.next p = s.next p)
    (more : s.made ≤ s'.made) : Linked s' l := by
  refine ⟨?_, linked.nodup, fun p mem => Nat.lt_of_lt_of_le (linked.made p mem) more⟩
  rw [head]
  exact linked.chain.congr same

theorem Linked.makeBan (linked : Linked s l) (ban : Ban) : Linked (s.makeBan ban) l :=
  linked.congr rfl (fun p mem => Function.update_of_ne (Nat.ne_of_lt (linked.made p mem)) _ _) (Nat.le_succ _)

theorem Linked.freeBan (linked : Linked s l) {p : Ptr} (outside : p ∉ l) : Linked (s.freeBan p) l :=
  linked.congr rfl (fun _ mem => Function.update_of_ne (ne_of_mem_of_not_mem mem outside) _ _) (Nat.le_refl _)

theorem Linked.append (linked : Linked s l) {p : Ptr} (outside : p ∉ l) (last : s.next p = none)
    (made : p < s.made) :
    Linked (s.store l.getLast? (some p)) (l ++ [p]) := by
  have nodup : (l ++ [p]).Nodup := List.nodup_append.mpr ⟨linked.nodup, List.nodup_singleton p, by
    rintro a mem b there rfl
    exact outside (List.mem_singleton.mp there ▸ mem)⟩
  have all_made : ∀ q ∈ l ++ [p], q < s.made := by
    intro q mem
    rcases List.mem_append.mp mem with old | new
    · exact linked.made q old
    · exact List.mem_singleton.mp new ▸ made
  rcases List.eq_nil_or_concat l with rfl | ⟨front, a, rfl⟩
  · exact ⟨⟨rfl, last⟩, nodup, all_made⟩
  · rw [List.concat_eq_append] at *
    rw [List.getLast?_concat]
    refine ⟨?_, nodup, all_made⟩
    rw [List.append_assoc]
    have fresh := (List.nodup_append.mp linked.nodup).2.2
    refine linked.chain.snoc (fun c mem => Function.update_of_ne ?_ _ _) (Function.update_self _ _ _) ?_
    · exact fresh c mem a List.mem_cons_self
    · refine (Function.update_of_ne ?_ _ _).trans last
      rintro rfl
      exact outside (List.mem_append_right _ List.mem_cons_self)

end

def markBan (ban : Ban) : Ban := { ban with flags := { ban.flags with overlapped := true, del := true } }

section
variable (covers : Ban → Ban → Bool)

def markAll (newban : Ban) (linked : List Ban) : List Ban :=
  linked.map fun ban => if covers newban ban then markBan ban else ban

/-- The list that `apply_ban` leaves, and whether the ban was applied. -/
def applyBanTo (linked : List Ban) (newban : Ban) : List Ban × Bool :=
  if newban.flags.add then
    if linked.any fun ban => covers ban newban && !ban.flags.del then (linked, false)
    else (markAll covers newban linked ++ [newban], true)
  else if linked.any fun ban => covers newban ban then (markAll covers newban linked, true)
  else (linked, false)

variable {covers} {s : Memory} {l : List Ptr} {newban : Ptr}

theorem markCovered_spec (covers : Ban → Ban → Bool) (linked : Linked s l) (outside : newban ∉ l) :
    (markCovered covers s newban).next = s.next ∧ (markCovered covers s newban).silence = s.silence ∧
      (markCovered covers s newban).made = s.made ∧ (markCovered covers s newban).freed = s.freed ∧
      (markCovered covers s newban).freeBans = s.freeBans ∧
      ∀ p, (markCovered covers s newban).ban p =
        if p ∈ l ∧ covers (s.ban newban) (s.ban p) then markBan (s.ban p) else s.ban p := by
  unfold markCovered
  rw [linked.list]
  have nodup := linked.nodup
  clear linked
  induction l generalizing s with
  | nil => exact ⟨rfl, rfl, rfl, rfl, rfl, fun p => by simp⟩
  | cons a l ih =>
    obtain ⟨fresh, nodup⟩ := List.nodup_cons.mp nodup
    have other : newban ≠ a := fun same => outside (same ▸ List.mem_cons_self)
    have behind : newban ∉ l := fun mem => outside (List.mem_cons_of_mem a mem)
    rw [List.foldl_cons]
    split <;> rename_i hit
    · obtain ⟨next, silence, made, freed, freeBans, ban⟩ := @ih (s.mark a) behind nodup
      refine ⟨next, silence, made, freed, freeBans, fun p => ?_⟩
      have same_new : (s.mark a).ban newban = s.ban newban := Function.update_of_ne other _ _
      rw [ban, same_new]
      by_cases at_a : p = a
      · subst at_a
        rw [if_neg fun both => fresh both.1, if_pos ⟨List.mem_cons_self, hit⟩]
        exact Function.update_self _ _ _
      · have same_p : (s.mark a).ban p = s.ban p := Function.update_of_ne at_a _ _
        rw [same_p]
        simp only [List.mem_cons, at_a, false_or]
    · obtain ⟨next, silence, made, freed, freeBans, ban⟩ := @ih s behind nodup
      refine ⟨next, silence, made, freed, freeBans, fun p => ?_⟩
      rw [ban]
      by_cases at_a : p = a
      · subst at_a
        rw [if_neg fun both => fresh both.1, if_neg fun both => hit both.2]
      · simp only [List.mem_cons, at_a, false_or]

def markedBy (covers : Ban → Ban → Bool) (s : Memory) (l : List Ptr) (newban p : Ptr) : Ban :=
  if p ∈ l ∧ covers (s.ban newban) (s.ban p) then markBan (s.ban p) else s.ban p

theorem map_markedBy (s : Memory) (l : List Ptr) (newban : Ptr) :
    l.map (markedBy covers s l newban) = markAll covers (s.ban newban) (l.map s.ban) := by
  rw [markAll, List.map_map]
  refine List.map_congr_left fun p mem => ?_
  rw [markedBy, Function.comp_apply]
  simp only [mem, true_and]

structure Taken (covers : Ban → Ban → Bool) (s : Memory) (l : List Ptr) (newban : Ptr) (s' : Memory)
    (l' : List Ptr) : Prop where
  linked : Linked s' l'
  ban : s'.ban = markedBy covers s l newban
  made : s'.made = s.made
  freed : s'.freed = s.freed

def entered (s : Memory) (newban : Ptr) : List Ptr := if (s.ban newban).flags.add then [newban] else []

theorem applyBan_spec (covers : Ban → Ban → Bool) (linked : Linked s l) (outside : newban ∉ l)
    (last : s.next newban = none) (made : newban < s.made) :
    (∃ s', applyBan covers s newban = (s', true) ∧ Taken covers s l newban s' (l ++ entered s newban) ∧
      applyBanTo covers (l.map s.ban) (s.ban newban) =
        (markAll covers (s.ban newban) (l.map s.ban) ++ (entered s newban).map s.ban, true)) ∨
      applyBan covers s newban = (s.freeBan newban, false) ∧
        applyBanTo covers (l.map s.ban) (s.ban newban) = (l.map s.ban, false) := by
  obtain ⟨next, silence, made_same, freed, -, ban⟩ := markCovered_spec covers linked outside
  have marked : Linked (markCovered covers s newban) l :=
    linked.congr silence (fun p _ => congrFun next p) (Nat.le_of_eq made_same.symm)
  unfold applyBan applyBanTo entered
  rw [linked.list, List.any_map, List.any_map]
  cases add : (s.ban newban).flags.add with
  | true =>
    rw [if_pos rfl, if_pos rfl]
    cases blocked : l.any fun p => covers (s.ban p) (s.ban newban) && !(s.ban p).flags.del with
    | true => exact .inr ⟨rfl, if_pos blocked⟩
    | false =>
      have appended := marked.append outside ((congrFun next newban).trans last) (made_same.symm ▸ made)
      refine .inl ⟨_, rfl, ⟨appended, ?_, ?_, ?_⟩, if_neg (Bool.eq_false_iff.mp blocked)⟩
      · rw [Memory.ban_store]
        exact funext ban
      · rw [Memory.made_store, made_same]
      · rw [Memory.freed_store, freed]
  | false =>
    rw [if_neg Bool.false_ne_true, if_neg Bool.false_ne_true, if_neg Bool.false_ne_true, List.append_nil]
    cases hit : l.any fun p => covers (s.ban newban) (s.ban p) with
    | true =>
      refine .inl ⟨_, rfl, ⟨marked, funext ban, made_same, freed⟩, ?_⟩
      rw [List.map_nil, List.append_nil]
      exact if_pos hit
    | false => exact .inr ⟨rfl, if_neg (Bool.eq_false_iff.mp hit)⟩

end

def Unapplied (ban : Ban) : Prop := ban.flags.overlapped = false ∧ ban.flags.del = !ban.flags.add

theorem readUpdate_unapplied (token : List Char) : Unapplied (readUpdate token) := ⟨rfl, (Bool.not_not _).symm⟩

structure Applied (old : List Ptr) (s : Memory) (adds accepted : List Ptr) : Prop where
  linked : Linked s (old ++ adds)
  marks : ∀ p ∈ old ++ adds, (s.ban p).flags.overlapped = (s.ban p).flags.del
  old_flags : ∀ p ∈ old, (s.ban p).flags.add = false
  adds_eq : accepted.filter (fun p => (s.ban p).flags.add) = adds
  removals : ∀ p ∈ accepted, (s.ban p).flags.add = false → (s.ban p).flags.del = true ∧ p ∉ old
  accepted_nodup : accepted.Nodup
  accepted_made : ∀ p ∈ accepted, p < s.made
  freed_nodup : s.freed.Nodup
  freed_apart : ∀ p ∈ s.freed, p < s.made ∧ p ∉ old ∧ p ∉ accepted

section
variable {covers : Ban → Ban → Bool} {old adds accepted : List Ptr} {s : Memory}

theorem ban_makeBan {p : Ptr} (ban : Ban) (made : p < s.made) : (s.makeBan ban).ban p = s.ban p :=
  Function.update_of_ne (Nat.ne_of_lt made) _ _

theorem Applied.adds_accepted (applied : Applied old s adds accepted) {p : Ptr} (mem : p ∈ adds) :
    p ∈ accepted ∧ (s.ban p).flags.add = true := by
  rw [← applied.adds_eq] at mem
  exact List.mem_filter.mp mem

theorem Applied.fresh (applied : Applied old s adds accepted) :
    s.made ∉ old ++ adds ∧ s.made ∉ accepted ∧ s.made ∉ s.freed :=
  ⟨fun mem => absurd (applied.linked.made _ mem) (Nat.lt_irrefl _),
    fun mem => absurd (applied.accepted_made _ mem) (Nat.lt_irrefl _),
    fun mem => absurd (applied.freed_apart _ mem).1 (Nat.lt_irrefl _)⟩

theorem Applied.makeBan (applied : Applied old s adds accepted) (ban : Ban) :
    Applied old (s.makeBan ban) adds accepted := by
  have in_list : ∀ p ∈ old ++ adds, (s.makeBan ban).ban p = s.ban p := fun p mem =>
    ban_makeBan ban (applied.linked.made p mem)
  have in_accepted : ∀ p ∈ accepted, (s.makeBan ban).ban p = s.ban p := fun p mem =>
    ban_makeBan ban (applied.accepted_made p mem)
  refine ⟨applied.linked.makeBan ban, ?_, ?_, ?_, ?_, applied.accepted_nodup,
    fun p mem => Nat.lt_succ_of_lt (applied.accepted_made p mem), applied.freed_nodup, ?_⟩
  · intro p mem
    rw [in_list p mem]
    exact applied.marks p mem
  · intro p mem
    rw [in_list p (List.mem_append_left _ mem)]
    exact applied.old_flags p mem
  · rw [← applied.adds_eq]
    exact List.filter_congr fun p mem => by rw [in_accepted p mem]
  · intro p mem
    rw [in_accepted p mem]
    exact applied.removals p mem
  · intro p mem
    obtain ⟨made, apart⟩ := applied.freed_apart p mem
    exact ⟨Nat.lt_succ_of_lt made, apart⟩

theorem Applied.freeBan (applied : Applied old s adds accepted) {p : Ptr} (made : p < s.made)
    (unlinked : p ∉ old ++ adds) (unaccepted : p ∉ accepted) (unfreed : p ∉ s.freed) :
    Applied old (s.freeBan p) adds accepted := by
  refine ⟨applied.linked.freeBan unlinked, applied.marks, applied.old_flags, applied.adds_eq, applied.removals,
    applied.accepted_nodup, applied.accepted_made, ?_, ?_⟩
  · refine List.nodup_append.mpr ⟨applied.freed_nodup, List.nodup_singleton p, ?_⟩
    rintro a mem b there rfl
    exact unfreed (List.mem_singleton.mp there ▸ mem)
  · intro q mem
    rcases List.mem_append.mp mem with before | now
    · exact applied.freed_apart q before
    · rw [List.mem_singleton.mp now]
      exact ⟨made, fun mem => unlinked (List.mem_append_left _ mem), unaccepted⟩

theorem markedBy_flags (s : Memory) (l : List Ptr) (newban p : Ptr) :
    (markedBy covers s l newban p).flags.add = (s.ban p).flags.add ∧
      ((s.ban p).flags.overlapped = (s.ban p).flags.del →
        (markedBy covers s l newban p).flags.overlapped = (markedBy covers s l newban p).flags.del) ∧
      ((s.ban p).flags.del = true → (markedBy covers s l newban p).flags.del = true) := by
  unfold markedBy
  split
  · exact ⟨rfl, fun _ => rfl, fun _ => rfl⟩
  · exact ⟨rfl, id, id⟩

theorem markedBy_outside (s : Memory) {l : List Ptr} (newban : Ptr) {p : Ptr} (outside : p ∉ l) :
    markedBy covers s l newban p = s.ban p := if_neg fun both => outside both.1

theorem Applied.taken (applied : Applied old s adds accepted) {p : Ptr} (made : p < s.made)
    (unlinked : p ∉ old ++ adds) (unaccepted : p ∉ accepted) (unfreed : p ∉ s.freed)
    (unapplied : Unapplied (s.ban p)) {s' : Memory}
    (taken : Taken covers s (old ++ adds) p s' (old ++ adds ++ entered s p)) :
    Applied old s' (adds ++ entered s p) (accepted ++ [p]) := by
  have ban_eq := taken.ban
  have old_ban : (markedBy covers s (old ++ adds) p p) = s.ban p := markedBy_outside s p unlinked
  refine ⟨?_, ?_, ?_, ?_, ?_, ?_, ?_, ?_, ?_⟩
  · rw [← List.append_assoc]
    exact taken.linked
  · intro q mem
    rw [ban_eq]
    refine (markedBy_flags s (old ++ adds) p q).2.1 ?_
    rw [← List.append_assoc] at mem
    rcases List.mem_append.mp mem with before | new
    · exact applied.marks q before
    · unfold entered at new
      split at new <;> rename_i add
      · rw [List.mem_singleton.mp new, unapplied.1, unapplied.2, add]
        rfl
      · exact absurd new List.not_mem_nil
  · intro q mem
    rw [ban_eq, (markedBy_flags s (old ++ adds) p q).1]
    exact applied.old_flags q mem
  · rw [ban_eq]
    have same : ∀ q, (markedBy covers s (old ++ adds) p q).flags.add = (s.ban q).flags.add := fun q =>
      (markedBy_flags s (old ++ adds) p q).1
    simp only [same]
    rw [List.filter_append, applied.adds_eq, entered, List.filter_singleton]
    cases (s.ban p).flags.add <;> rfl
  · intro q mem no_add
    rw [ban_eq] at no_add ⊢
    rw [(markedBy_flags s (old ++ adds) p q).1] at no_add
    rcases List.mem_append.mp mem with before | now
    · obtain ⟨del, outside⟩ := applied.removals q before no_add
      exact ⟨(markedBy_flags s (old ++ adds) p q).2.2 del, outside⟩
    · rw [List.mem_singleton.mp now] at no_add ⊢
      refine ⟨?_, fun mem => unlinked (List.mem_append_left _ mem)⟩
      rw [old_ban, unapplied.2, no_add]
      rfl
  · refine List.nodup_append.mpr ⟨applied.accepted_nodup, List.nodup_singleton p, ?_⟩
    rintro a mem b there rfl
    exact unaccepted (List.mem_singleton.mp there ▸ mem)
  · intro q mem
    rw [taken.made]
    rcases List.mem_append.mp mem with before | now
    · exact applied.accepted_made q before
    · exact List.mem_singleton.mp now ▸ made
  · rw [taken.freed]
    exact applied.freed_nodup
  · rw [taken.freed, taken.made]
    intro q mem
    obtain ⟨made', outside, unaccepted'⟩ := applied.freed_apart q mem
    refine ⟨made', outside, fun both => ?_⟩
    rcases List.mem_append.mp both with before | now
    · exact unaccepted' before
    · exact unfreed (List.mem_singleton.mp now ▸ mem)

end

section
variable (covers : Ban → Ban → Bool) (myUser : Bool)

def refusedMask (cp : List Char) : Bool := myUser && tooWide (readUpdate cp)

def updateBans (bans : List Ban) (cp : List Char) : List Ban × Bool :=
  if refusedMask myUser cp then (bans, false) else applyBanTo covers bans (readUpdate cp)

def updateAll (bans : List Ban) (read : List (List Char)) : List Ban :=
  read.foldl (fun bans cp => (updateBans covers myUser bans cp).1) bans

/-- The updates that are read: those up to the last one there is room for. -/
def readTokens : Nat → List Ban → List (List Char) → List (List Char)
  | _, _, [] => []
  | taken, bans, cp :: rest =>
    if taken < maxPara then
      let (bans, applied) := updateBans covers myUser bans cp
      cp :: readTokens (taken + applied.toNat) bans rest
    else []

end

section
variable {covers : Ban → Ban → Bool} {old adds accepted : List Ptr} {s : Memory}

theorem ban_made (s : Memory) (ban : Ban) : (s.makeBan ban).ban s.made = ban := Function.update_self _ _ _

theorem map_ban_makeBan (linked : Linked s (old ++ adds)) (ban : Ban) :
    (old ++ adds).map (s.makeBan ban).ban = (old ++ adds).map s.ban :=
  List.map_congr_left fun p mem => ban_makeBan ban (linked.made p mem)

theorem Taken.map_ban {l : List Ptr} {p : Ptr} {s' : Memory} (taken : Taken covers s l p s' (l ++ entered s p))
    (outside : p ∉ l) :
    (l ++ entered s p).map s'.ban = markAll covers (s.ban p) (l.map s.ban) ++ (entered s p).map s.ban := by
  rw [taken.ban, List.map_append, map_markedBy]
  congr 1
  unfold entered
  split
  · rw [List.map_singleton, List.map_singleton, markedBy_outside s p outside]
  · rfl

theorem Applied.step (covers : Ban → Ban → Bool) (applied : Applied old s adds accepted) (ban : Ban)
    (unapplied : Unapplied ban) :
    (∃ s' new, applyBan covers (s.makeBan ban) s.made = (s', true) ∧
      Applied old s' (adds ++ new) (accepted ++ [s.made]) ∧
      applyBanTo covers ((old ++ adds).map s.ban) ban = ((old ++ (adds ++ new)).map s'.ban, true)) ∨
      applyBan covers (s.makeBan ban) s.made = ((s.makeBan ban).freeBan s.made, false) ∧
        applyBanTo covers ((old ++ adds).map s.ban) ban = ((old ++ adds).map s.ban, false) := by
  have made := applied.makeBan ban
  obtain ⟨unlinked, unaccepted, unfreed⟩ := applied.fresh
  have spec := applyBan_spec covers made.linked unlinked (Function.update_self _ _ _) (Nat.lt_succ_self _)
  rw [map_ban_makeBan applied.linked, ban_made] at spec
  rcases spec with ⟨s', run, taken, listed⟩ | refused
  · refine .inl ⟨s', _, run, made.taken (Nat.lt_succ_self _) unlinked unaccepted unfreed ?_ taken, ?_⟩
    · rwa [ban_made]
    · have bans := taken.map_ban unlinked
      rw [map_ban_makeBan applied.linked, ban_made] at bans
      rw [listed, ← List.append_assoc, bans]
  · exact .inr refused

/-- The loop over the updates keeps the lists and does to them what the updates do to a list. -/
theorem applySilences_spec (covers : Ban → Ban → Bool) (myUser : Bool) (rest : List (List Char))
    (applied : Applied old s adds accepted) (replies : List Reply) :
    ∃ s' adds' accepted', Applied old s' adds' accepted' ∧
      applySilences covers myUser rest s accepted replies = (s', accepted', replies ++
        ((readTokens covers myUser accepted.length ((old ++ adds).map s.ban) rest).filter (refusedMask myUser)).map
          fun cp => .maskTooWide (origMask cp)) ∧
      (old ++ adds').map s'.ban = updateAll covers myUser ((old ++ adds).map s.ban)
        (readTokens covers myUser accepted.length ((old ++ adds).map s.ban) rest) := by
  induction rest generalizing s adds accepted replies with
  | nil =>
    refine ⟨s, adds, accepted, applied, ?_, rfl⟩
    rw [readTokens, List.filter_nil, List.map_nil, List.append_nil]
    rfl
  | cons cp rest ih =>
    rw [applySilences, readTokens]
    by_cases room : accepted.length < maxPara
    · rw [if_pos room, if_pos room]
      have made := applied.makeBan (readUpdate cp)
      obtain ⟨unlinked, unaccepted, unfreed⟩ := applied.fresh
      have freed := made.freeBan (Nat.lt_succ_self _) unlinked unaccepted unfreed
      have same : (old ++ adds).map ((s.makeBan (readUpdate cp)).freeBan s.made).ban = (old ++ adds).map s.ban :=
        map_ban_makeBan applied.linked (readUpdate cp)
      simp only [ban_made]
      by_cases wide : refusedMask myUser cp
      · have unread : updateBans covers myUser ((old ++ adds).map s.ban) cp = ((old ++ adds).map s.ban, false) :=
          if_pos wide
        obtain ⟨s', adds', accepted', applied', run, bans⟩ := ih freed (replies ++ [.maskTooWide (origMask cp)])
        rw [same] at run bans
        refine ⟨s', adds', accepted', applied', ?_, ?_⟩
        · have refused : (myUser && tooWide (readUpdate cp)) = true := wide
          rw [if_pos refused, run, unread, List.filter_cons_of_pos wide, List.map_cons, List.append_assoc]
          rfl
        · rw [bans, unread, updateAll, updateAll, List.foldl_cons, unread]
          rfl
      · have read : updateBans covers myUser ((old ++ adds).map s.ban) cp =
            applyBanTo covers ((old ++ adds).map s.ban) (readUpdate cp) := if_neg wide
        have unrefused : ¬ (myUser && tooWide (readUpdate cp)) = true := wide
        rw [if_neg unrefused]
        rcases applied.step covers (readUpdate cp) (readUpdate_unapplied cp) with
          ⟨s₁, new, run₁, applied₁, listed⟩ | ⟨run₁, listed⟩
        · obtain ⟨s', adds', accepted', applied', run, bans⟩ := ih applied₁ replies
          refine ⟨s', adds', accepted', applied', ?_, ?_⟩
          · rw [run₁, read, listed, List.filter_cons_of_neg wide]
            rw [List.length_append] at run
            exact run
          · rw [bans, read, listed, updateAll, updateAll, List.foldl_cons, read, listed, List.length_append]
            rfl
        · obtain ⟨s', adds', accepted', applied', run, bans⟩ := ih freed replies
          rw [same] at run bans
          refine ⟨s', adds', accepted', applied', ?_, ?_⟩
          · rw [run₁, read, listed, List.filter_cons_of_neg wide]
            exact run
          · rw [bans, read, listed, updateAll, updateAll, List.foldl_cons, read, listed]
            rfl
    · rw [if_neg room, if_neg room]
      refine ⟨s, adds, accepted, applied, ?_, rfl⟩
      rw [List.filter_nil, List.map_nil, List.append_nil]

end

end Ircd.Silences
