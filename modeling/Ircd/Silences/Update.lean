import Ircd.Silences.Limits

/-! A line of updates to the silences of a user.

What the line leaves is what `apply_ban` makes of the updates that are read, without the additions
that do not fit. No ban is freed twice, and the list does not grow past its limit.
-/

set_option autoImplicit false

namespace Ircd.Silences

open Ircd.Channels Ircd.Library

def settle (ban : Ban) : Ban := { ban with flags := { ban.flags with add := false } }

section
variable {s : Memory} {l pre rest : List Ptr} {p : Ptr}

theorem Linked.remove (linked : Linked s (pre ++ p :: rest)) :
    Linked (s.store pre.getLast? (s.next p)) (pre ++ rest) := by
  have fewer : (pre ++ rest).Sublist (pre ++ p :: rest) :=
    List.Sublist.append_left (List.sublist_cons_self p rest) pre
  have nodup := linked.nodup.sublist fewer
  have made : ∀ q ∈ pre ++ rest, q < s.made := fun q mem => linked.made q (fewer.subset mem)
  rcases List.eq_nil_or_concat pre with rfl | ⟨before, last, rfl⟩
  · exact ⟨linked.chain.2, nodup, made⟩
  · rw [List.concat_eq_append] at *
    rw [List.getLast?_concat]
    refine ⟨?_, nodup, made⟩
    have chain := linked.chain
    have distinct := linked.nodup
    rw [List.append_assoc] at chain distinct ⊢
    exact chain.unlink distinct

theorem sweep_spec {fuel : Nat} (linked : Linked s (pre ++ rest)) (enough : rest.length < fuel) :
    Linked (sweep fuel s pre.getLast?) (pre ++ unmarked s rest) ∧ (sweep fuel s pre.getLast?).made = s.made ∧
      (sweep fuel s pre.getLast?).freed = s.freed ++ rest.filter (fun p => marked (s.ban p)) ∧
      ∀ p, (sweep fuel s pre.getLast?).ban p = if p ∈ unmarked s rest then settle (s.ban p) else s.ban p := by
  induction rest generalizing s pre fuel with
  | nil =>
    obtain ⟨fuel, rfl⟩ : ∃ n, fuel = n + 1 := ⟨fuel - 1, by omega⟩
    rw [sweep, linked.load]
    exact ⟨linked, rfl, (List.append_nil _).symm, fun p => (if_neg List.not_mem_nil).symm⟩
  | cons p rest ih =>
    obtain ⟨fuel, rfl⟩ : ∃ n, fuel = n + 1 := ⟨fuel - 1, by rw [List.length_cons] at enough; omega⟩
    have shorter : rest.length < fuel := Nat.lt_of_succ_lt_succ enough
    have distinct := List.nodup_cons.mp (List.perm_middle.nodup_iff.mp linked.nodup)
    rw [sweep, linked.load, List.head?_cons]
    simp only
    have flags : ((s.ban p).flags.overlapped || (s.ban p).flags.del) = marked (s.ban p) := rfl
    rw [flags]
    cases hit : marked (s.ban p) with
    | true =>
      rw [if_pos rfl]
      have freed := linked.remove.freeBan (p := p) distinct.1
      have same : ((s.store pre.getLast? (s.next p)).freeBan p).ban = s.ban := s.ban_store _ _
      obtain ⟨linked', made, frees, bans⟩ := ih freed shorter
      unfold unmarked at linked' bans
      rw [same] at linked' frees bans
      refine ⟨?_, ?_, ?_, ?_⟩
      · rw [unmarked_cons_of_marked hit]
        exact linked'
      · rw [made]
        exact s.made_store _ _
      · have now : ((s.store pre.getLast? (s.next p)).freeBan p).freed = s.freed ++ [p] :=
          congrArg (· ++ [p]) (s.freed_store _ _)
        have first : (p :: rest).filter (fun p => marked (s.ban p)) = p :: rest.filter fun p => marked (s.ban p) :=
          List.filter_cons_of_pos hit
        rw [frees, now, first, List.append_assoc]
        rfl
      · rw [unmarked_cons_of_marked hit]
        exact bans
    | false =>
      rw [if_neg Bool.false_ne_true]
      generalize settled_eq : s.setFlags p { (s.ban p).flags with add := false } = settled
      have next : settled.next = s.next := by rw [← settled_eq]; rfl
      have silence : settled.silence = s.silence := by rw [← settled_eq]; rfl
      have load : settled.load pre.getLast? = some p := by
        rw [← settled_eq]
        exact linked.load
      have unchanged : settled.store pre.getLast? (some p) = settled := load ▸ store_load pre.getLast?
      have at_p : settled.ban p = settle (s.ban p) := by
        rw [← settled_eq]
        exact Function.update_self _ _ _
      have elsewhere : ∀ q, q ≠ p → settled.ban q = s.ban q := by
        rw [← settled_eq]
        exact fun q other => Function.update_of_ne other _ _
      have in_rest : ∀ q ∈ rest, settled.ban q = s.ban q := fun q mem =>
        elsewhere q fun same => distinct.1 (List.mem_append_right _ (same ▸ mem))
      have split : pre ++ p :: rest = (pre ++ [p]) ++ rest := by rw [List.append_assoc]; rfl
      have made : settled.made = s.made := by rw [← settled_eq]; rfl
      have linked' : Linked settled ((pre ++ [p]) ++ rest) :=
        split ▸ linked.congr silence (fun q _ => congrFun next q) (Nat.le_of_eq made.symm)
      have same_rest : unmarked settled rest = unmarked s rest :=
        List.filter_congr fun q mem => by rw [in_rest q mem]
      have same_freed : rest.filter (fun q => marked (settled.ban q)) = rest.filter fun q => marked (s.ban q) :=
        List.filter_congr fun q mem => by rw [in_rest q mem]
      obtain ⟨ends, ends_made, frees, bans⟩ := ih linked' shorter
      rw [List.getLast?_concat] at ends ends_made frees bans
      rw [unchanged, unmarked_cons hit]
      refine ⟨?_, ends_made.trans made, ?_, fun q => ?_⟩
      · rw [same_rest, List.append_assoc] at ends
        exact ends
      · have first : (p :: rest).filter (fun p => marked (s.ban p)) = rest.filter fun p => marked (s.ban p) :=
          List.filter_cons_of_neg (Bool.eq_false_iff.mp hit)
        rw [frees, same_freed, first, ← settled_eq]
        rfl
      · rw [bans, same_rest]
        by_cases here : q = p
        · subst here
          have unlisted : q ∉ unmarked s rest := fun mem =>
            distinct.1 (List.mem_append_right _ (List.mem_of_mem_filter mem))
          rw [if_neg unlisted, if_pos List.mem_cons_self, at_p]
        · rw [elsewhere q here]
          simp only [List.mem_cons, here, false_or]

def removal (ban : Ban) : Bool := ban.flags.del && !ban.flags.add

theorem freeRemovals_cons (s : Memory) (p : Ptr) (accepted : List Ptr) :
    freeRemovals s (p :: accepted) = freeRemovals (if removal (s.ban p) then s.freeBan p else s) accepted := rfl

theorem freeRemovals_spec {accepted : List Ptr} (linked : Linked s l)
    (outside : ∀ p ∈ accepted, removal (s.ban p) = true → p ∉ l) :
    Linked (freeRemovals s accepted) l ∧ (freeRemovals s accepted).ban = s.ban ∧
      (freeRemovals s accepted).made = s.made ∧
      (freeRemovals s accepted).freed = s.freed ++ accepted.filter fun p => removal (s.ban p) := by
  induction accepted generalizing s with
  | nil => exact ⟨linked, rfl, rfl, (List.append_nil _).symm⟩
  | cons p accepted ih =>
    have others : ∀ q ∈ accepted, removal (s.ban q) = true → q ∉ l := fun q mem =>
      outside q (List.mem_cons_of_mem p mem)
    rw [freeRemovals_cons]
    cases hit : removal (s.ban p) with
    | true =>
      have first : (p :: accepted).filter (fun p => removal (s.ban p)) =
          p :: accepted.filter fun p => removal (s.ban p) :=
        List.filter_cons_of_pos hit
      obtain ⟨ends, ban, made, freed⟩ := ih (linked.freeBan (outside p List.mem_cons_self hit)) others
      refine ⟨ends, ban, made, freed.trans ?_⟩
      rw [first]
      exact List.append_assoc _ _ _
    | false =>
      have first : (p :: accepted).filter (fun p => removal (s.ban p)) =
          accepted.filter fun p => removal (s.ban p) :=
        List.filter_cons_of_neg (Bool.eq_false_iff.mp hit)
      rw [first]
      exact ih linked others

def Memory.bans (s : Memory) : List Ban := s.list.map s.ban

/-- Between two lines: a list of silences without marks, and no ban was freed twice. -/
structure Holds (s : Memory) : Prop where
  linked : Linked s s.list
  clean : ∀ ban ∈ s.bans, ban.flags.overlapped = false ∧ ban.flags.del = false ∧ ban.flags.add = false
  freed_nodup : s.freed.Nodup
  freed_apart : ∀ p ∈ s.freed, p < s.made ∧ p ∉ s.list

theorem Holds.applied (holds : Holds s) : Applied s.list s [] [] := by
  have clean : ∀ p ∈ s.list, (s.ban p).flags.overlapped = false ∧ (s.ban p).flags.del = false ∧
      (s.ban p).flags.add = false := fun p mem => holds.clean _ (List.mem_map_of_mem mem)
  constructor
  · rw [List.append_nil]
    exact holds.linked
  · rw [List.append_nil]
    exact fun p mem => (clean p mem).1.trans (clean p mem).2.1.symm
  · exact fun p mem => (clean p mem).2.2
  · rfl
  · exact fun p mem => absurd mem List.not_mem_nil
  · exact List.nodup_nil
  · exact fun p mem => absurd mem List.not_mem_nil
  · exact holds.freed_nodup
  · exact fun p mem => ⟨(holds.freed_apart p mem).1, (holds.freed_apart p mem).2, List.not_mem_nil⟩

theorem removal_settle {ban : Ban} (alive : marked ban = false) : removal (settle ban) = false := by
  have del := (Bool.or_eq_false_iff.mp alive).2
  unfold removal settle
  rw [del]
  rfl

theorem Limiting.settled {c : Count} (limiting : Limiting s c l []) :
    Holds (freeRemovals (sweep (c.s.made + 1) c.s none) c.accepted) ∧
      (freeRemovals (sweep (c.s.made + 1) c.s none) c.accepted).bans = ((unmarked s l).map s.ban).map settle := by
  have whole : Linked c.s ([] ++ l) := limiting.linked
  obtain ⟨linked, made, frees, bans⟩ := sweep_spec whole (Nat.lt_succ_of_le limiting.linked.length_le)
  unfold unmarked at linked bans
  rw [limiting.ban] at linked frees bans
  rw [List.getLast?_nil, List.nil_append] at *
  generalize sweep (c.s.made + 1) c.s none = swept at *
  have kept : ∀ p ∈ unmarked s l, marked (s.ban p) = false := fun p mem =>
    Bool.not_eq_true' _ ▸ (List.mem_filter.mp mem).2
  -- a removal that is freed here was one before the sweep, and such a ban is not linked
  have removals : ∀ p ∈ c.accepted, removal (swept.ban p) = true → (s.ban p).flags.add = false ∧ p ∉ l := by
    intro p mem hit
    rw [bans] at hit
    split at hit <;> rename_i there
    · exact absurd hit (Bool.eq_false_iff.mp (removal_settle (kept p there)))
    · have no_add : (s.ban p).flags.add = false := by
        rw [← Bool.not_eq_true']
        exact (Bool.and_eq_true_iff.mp hit).2
      exact ⟨no_add, (limiting.removals p (List.mem_append_left _ mem) no_add).2⟩
  have outside : ∀ p ∈ c.accepted, removal (swept.ban p) = true → p ∉ unmarked s l := fun p mem hit there =>
    (removals p mem hit).2 (List.mem_of_mem_filter there)
  obtain ⟨ends, ban, ends_made, freed⟩ := freeRemovals_spec linked outside
  generalize freeRemovals swept c.accepted = s' at *
  have same_list : s'.list = unmarked s l := ends.list
  have same_bans : s'.bans = ((unmarked s l).map s.ban).map settle := by
    rw [Memory.bans, same_list, List.map_map, ban]
    refine List.map_congr_left fun p mem => ?_
    rw [bans]
    exact if_pos mem
  refine ⟨⟨?_, ?_, ?_, ?_⟩, same_bans⟩
  · rw [same_list]
    exact ends
  · rw [same_bans, List.map_map]
    intro b mem
    obtain ⟨p, there, rfl⟩ := List.mem_map.mp mem
    obtain ⟨overlapped, del⟩ := Bool.or_eq_false_iff.mp (kept p there)
    exact ⟨overlapped, del, rfl⟩
  · have apart := limiting.freed_apart
    rw [freed, frees]
    refine List.nodup_append.mpr ⟨List.nodup_append.mpr ⟨limiting.freed_nodup, ?_, ?_⟩, ?_, ?_⟩
    · exact limiting.linked.nodup.filter _
    · rintro a before b now rfl
      exact (apart a before).2.1 (List.mem_of_mem_filter now)
    · exact (List.append_nil c.accepted ▸ limiting.accepted_nodup).filter _
    · rintro a before b now rfl
      obtain ⟨mem, hit⟩ := List.mem_filter.mp now
      rcases List.mem_append.mp before with earlier | swept_now
      · exact (apart a earlier).2.2 (List.mem_append_left _ mem)
      · exact (removals a mem hit).2 (List.mem_of_mem_filter swept_now)
  · rw [same_list, freed, frees, ends_made, made, limiting.made]
    intro p mem
    rcases List.mem_append.mp mem with before | now
    · rcases List.mem_append.mp before with earlier | swept_now
      · obtain ⟨made', unlinked, -⟩ := limiting.freed_apart p earlier
        exact ⟨made', fun there => unlinked (List.mem_of_mem_filter there)⟩
      · obtain ⟨there, hit⟩ := List.mem_filter.mp swept_now
        refine ⟨limiting.made ▸ limiting.linked.made p there, fun alive => ?_⟩
        exact Bool.false_ne_true ((kept p alive).symm.trans hit)
    · obtain ⟨there, hit⟩ := List.mem_filter.mp now
      exact ⟨limiting.accepted_made p (List.mem_append_left _ there), fun alive =>
        (removals p there hit).2 (List.mem_of_mem_filter alive)⟩

end

section
variable {bans : List Ban} {newban ban : Ban}

theorem applyBanTo_mem (mem : ban ∈ (applyBanTo covers bans newban).1) :
    (∃ before ∈ bans, ban = before ∨ ban = markBan before) ∨ ban = newban := by
  have in_marks : ban ∈ markAll covers newban bans → ∃ before ∈ bans, ban = before ∨ ban = markBan before := by
    intro mem
    obtain ⟨before, there, rfl⟩ := List.mem_map.mp mem
    refine ⟨before, there, ?_⟩
    split
    · exact .inr rfl
    · exact .inl rfl
  unfold applyBanTo at mem
  split at mem
  · split at mem
    · exact .inl ⟨ban, mem, .inl rfl⟩
    · rcases List.mem_append.mp mem with before | new
      · exact .inl (in_marks before)
      · exact .inr (List.mem_singleton.mp new)
  · split at mem
    · exact .inl (in_marks mem)
    · exact .inl ⟨ban, mem, .inl rfl⟩

theorem applyBanTo_keeps (mem : ban ∈ bans) :
    ban ∈ (applyBanTo covers bans newban).1 ∨ covers newban ban = true := by
  cases hit : covers newban ban with
  | true => exact .inr rfl
  | false =>
    have in_marks : ban ∈ markAll covers newban bans :=
      List.mem_map.mpr ⟨ban, mem, if_neg (Bool.eq_false_iff.mp hit)⟩
    refine .inl ?_
    unfold applyBanTo
    split
    · split
      · exact mem
      · exact List.mem_append_left _ in_marks
    · split
      · exact in_marks
      · exact mem

theorem applyBanTo_adds (bans : List Ban) (add : newban.flags.add = true) :
    newban ∈ (applyBanTo covers bans newban).1 ∨ ∃ ban ∈ bans, covers ban newban = true := by
  unfold applyBanTo
  rw [if_pos add]
  split <;> rename_i blocked
  · obtain ⟨ban, mem, both⟩ := List.any_eq_true.mp blocked
    exact .inr ⟨ban, mem, (Bool.and_eq_true_iff.mp both).1⟩
  · exact .inl (List.mem_append_right _ List.mem_cons_self)

end

section
variable {myUser : Bool} {bans : List Ban} {cp : List Char} {read : List (List Char)}

theorem updateAll_cons : updateAll covers myUser bans (cp :: read) =
    updateAll covers myUser (updateBans covers myUser bans cp).1 read := rfl

theorem updateAll_mem {ban : Ban} (mem : ban ∈ updateAll covers myUser bans read) :
    ∃ source ∈ bans ++ read.map readUpdate, covers ban = covers source := by
  induction read generalizing bans with
  | nil => exact ⟨ban, List.mem_append_left _ mem, rfl⟩
  | cons cp read ih =>
    rw [updateAll_cons] at mem
    obtain ⟨source, there, same⟩ := ih mem
    rcases List.mem_append.mp there with before | behind
    · unfold updateBans at before
      split at before
      · exact ⟨source, List.mem_append_left _ before, same⟩
      · rcases applyBanTo_mem before with ⟨origin, old, rfl | rfl⟩ | rfl
        · exact ⟨source, List.mem_append_left _ old, same⟩
        · exact ⟨origin, List.mem_append_left _ old, same⟩
        · exact ⟨_, List.mem_append_right _ List.mem_cons_self, same⟩
    · exact ⟨source, List.mem_append_right _ (List.mem_cons_of_mem _ behind), same⟩

theorem updateAll_keeps (myUser : Bool) (read : List (List Char)) {ban : Ban} (mem : ban ∈ bans) :
    ban ∈ updateAll covers myUser bans read ∨ ∃ cp ∈ read, covers (readUpdate cp) ban = true := by
  induction read generalizing bans with
  | nil => exact .inl mem
  | cons cp read ih =>
    rw [updateAll_cons]
    have next : ban ∈ (updateBans covers myUser bans cp).1 ∨ covers (readUpdate cp) ban = true := by
      unfold updateBans
      split
      · exact .inl mem
      · exact applyBanTo_keeps mem
    rcases next with stays | covered
    · rcases ih stays with ends | ⟨later, there, hit⟩
      · exact .inl ends
      · exact .inr ⟨later, List.mem_cons_of_mem cp there, hit⟩
    · exact .inr ⟨cp, List.mem_cons_self, covered⟩

theorem updateAll_adds (bans : List Ban) (front back : List (List Char)) (add : (readUpdate cp).flags.add = true)
    (narrow : refusedMask myUser cp = false) :
    readUpdate cp ∈ updateAll covers myUser bans (front ++ cp :: back) ∨
      ∃ ban ∈ bans ++ (front ++ back).map readUpdate, covers ban (readUpdate cp) = true := by
  have later : updateAll covers myUser bans (front ++ cp :: back) =
      updateAll covers myUser (applyBanTo covers (updateAll covers myUser bans front) (readUpdate cp)).1 back := by
    unfold updateAll
    rw [List.foldl_append, List.foldl_cons, updateBans, if_neg (Bool.eq_false_iff.mp narrow)]
  rw [later, List.map_append]
  rcases applyBanTo_adds (updateAll covers myUser bans front) add with linked | ⟨ban, mem, covered⟩
  · rcases updateAll_keeps myUser back linked with ends | ⟨other, mem, covered⟩
    · exact .inl ends
    · exact .inr ⟨_, List.mem_append_right _ (List.mem_append_right _ (List.mem_map_of_mem mem)), covered⟩
  · obtain ⟨source, there, same⟩ := updateAll_mem mem
    rw [same] at covered
    refine .inr ⟨source, ?_, covered⟩
    rw [← List.append_assoc]
    exact List.mem_append_left _ there

end

theorem fitting_mem (features : Features) (siles totlength : Nat) {bans : List Ban} {ban : Ban} (mem : ban ∈ bans) :
    ban ∈ (fitting features siles totlength bans).1 ∨ ban ∈ (fitting features siles totlength bans).2 := by
  induction bans generalizing siles totlength with
  | nil => exact absurd mem List.not_mem_nil
  | cons first rest ih =>
    rw [fitting]
    split <;> rcases List.mem_cons.mp mem with rfl | behind
    · exact .inl List.mem_cons_self
    · exact (ih _ _ behind).imp_left (List.mem_cons_of_mem first)
    · exact .inr List.mem_cons_self
    · exact (ih _ _ behind).imp_right (List.mem_cons_of_mem first)

def added (ban : Ban) : Bool := !marked ban && ban.flags.add

theorem settle_counted {ban : Ban} (hit : counted ban = true) : settle ban = ban := by
  have no_add := (Bool.and_eq_true_iff.mp hit).2
  obtain ⟨banstr, who, when_, ⟨_, _, _, _, add, _, _⟩⟩ := ban
  cases add
  · rfl
  · cases no_add

theorem forwardSilences_holds (features : Features) (myUser : Bool) {s : Memory} (holds : Holds s)
    (silences : List Char) : Holds (forwardSilences covers features myUser s silences).1 := by
  obtain ⟨s₁, adds, accepted, applied, run, -⟩ :=
    applySilences_spec covers myUser (tokens silences) holds.applied []
  unfold forwardSilences
  rw [run]
  cases myUser with
  | true =>
    obtain ⟨l', limiting, -⟩ := applied.limit features
    exact limiting.settled.1
  | false =>
    have limiting : Limiting s₁ { s := s₁, accepted } (s.list ++ adds) [] :=
      applied.limiting rfl (List.append_nil _)
    exact limiting.settled.1

/-- What a line leaves of the silences of a local user. Where no addition that fits comes after one
that does not, those that fit are added, and every addition that was read is reported, added or covered. -/
theorem forwardSilences_updates (features : Features) {s : Memory} (holds : Holds s) (silences : List Char) :
    let read := readTokens covers true 0 s.bans (tokens silences)
    let linked := updateAll covers true s.bans read
    let kept := linked.filter counted
    let additions := linked.filter added
    let admitted := (fitting features kept.length (lengths kept) additions).1
    let refused := (fitting features kept.length (lengths kept) additions).2
    let after := (forwardSilences covers features true s silences).1
    let replies := (forwardSilences covers features true s silences).2
    Holds after ∧ after.list.length ≤ max features.maxSiles s.list.length ∧
      replies = (read.filter (refusedMask true)).map (fun cp => .maskTooWide (origMask cp)) ++
        refused.map (fun ban => .sileListFull ban.banstr) ∧
      (admitted <+: additions →
        after.bans = kept ++ admitted.map settle ∧
          ∀ front cp back, read = front ++ cp :: back → (readUpdate cp).flags.add = true →
            Reply.maskTooWide (origMask cp) ∈ replies ∨ .sileListFull (readUpdate cp).banstr ∈ replies ∨
              settle (readUpdate cp) ∈ after.bans ∨
                ∃ ban ∈ s.bans ++ (front ++ back).map readUpdate, covers ban (readUpdate cp) = true) := by
  intro read linked kept additions admitted refused after replies
  obtain ⟨s₁, adds, accepted, applied, run, bans⟩ :=
    applySilences_spec covers true (tokens silences) holds.applied []
  rw [List.append_nil, List.nil_append] at run
  rw [List.append_nil] at bans
  obtain ⟨l', limiting, full, stays⟩ := applied.limit features
  obtain ⟨holds', settled⟩ := limiting.settled
  have linked_eq : (s.list ++ adds).map s₁.ban = linked := bans
  rw [linked_eq] at full stays
  have forward : forwardSilences covers features true s silences =
      (freeRemovals (sweep ((limitSiles features s₁ accepted).s.made + 1) (limitSiles features s₁ accepted).s none)
        (limitSiles features s₁ accepted).accepted,
      (read.filter (refusedMask true)).map (fun cp => .maskTooWide (origMask cp)) ++
        (limitSiles features s₁ accepted).replies) := by
    unfold forwardSilences
    rw [run]
    rfl
  have after_eq : after = freeRemovals (sweep ((limitSiles features s₁ accepted).s.made + 1)
      (limitSiles features s₁ accepted).s none) (limitSiles features s₁ accepted).accepted :=
    congrArg Prod.fst forward
  have replies_eq : replies = (read.filter (refusedMask true)).map (fun cp => .maskTooWide (origMask cp)) ++
      refused.map (fun ban => .sileListFull ban.banstr) := (congrArg Prod.snd forward).trans (congrArg _ full)
  rw [← after_eq] at holds' settled
  have kept_settled : kept.map settle = kept := by
    have same : kept.map settle = kept.map id :=
      List.map_congr_left fun ban mem => settle_counted (List.mem_filter.mp mem).2
    rw [same, List.map_id]
  have silences_left : after.bans = kept ++ (front features kept.length (lengths kept) additions).map settle := by
    rw [settled, stays, List.map_append, kept_settled]
    rfl
  have few : kept.length ≤ s.list.length := by
    have silences_eq : kept = (s.list.filter fun p => counted (s₁.ban p)).map s₁.ban :=
      (congrArg (List.filter counted) linked_eq).symm.trans applied.silences
    rw [silences_eq, List.length_map]
    exact List.length_filter_le _ _
  refine ⟨holds', ?_, replies_eq, fun first => ⟨?_, ?_⟩⟩
  · have length_eq : after.bans.length = after.list.length := List.length_map _
    have bound : kept.length + (front features kept.length (lengths kept) additions).length ≤
        max features.maxSiles kept.length := front_length
    rw [← length_eq, silences_left, List.length_append, List.length_map]
    omega
  · rw [silences_left, front_of_prefix first]
  · intro before cp behind read_eq add
    cases wide : refusedMask true cp with
    | true =>
      refine .inl ?_
      rw [replies_eq]
      have here : cp ∈ read := read_eq ▸ List.mem_append_right _ List.mem_cons_self
      exact List.mem_append_left _ (List.mem_map_of_mem (List.mem_filter.mpr ⟨here, wide⟩))
    | false =>
      rcases updateAll_adds s.bans before behind add wide with there | covered
      · rw [← read_eq] at there
        have alive : added (readUpdate cp) = true := by
          obtain ⟨unlapped, del⟩ := readUpdate_unapplied cp
          unfold added marked
          rw [unlapped, del, add]
          rfl
        have addition : readUpdate cp ∈ additions := List.mem_filter.mpr ⟨there, alive⟩
        rcases fitting_mem features kept.length (lengths kept) addition with fits | full'
        · refine .inr (.inr (.inl ?_))
          rw [silences_left, front_of_prefix first]
          exact List.mem_append_right _ (List.mem_map_of_mem fits)
        · refine .inr (.inl ?_)
          rw [replies_eq]
          exact List.mem_append_right _ (List.mem_map_of_mem full')
      · exact .inr (.inr (.inr covered))

def noSilences : Memory :=
  ⟨fun _ => ⟨[], [], 0, ⟨false, false, false, false, false, false, false⟩⟩, fun _ => none, none, none, 0, []⟩

theorem noSilences_holds : Holds noSilences :=
  ⟨⟨rfl, List.nodup_nil, fun _ mem => absurd mem List.not_mem_nil⟩, fun _ mem => absurd mem List.not_mem_nil,
    List.nodup_nil, fun _ mem => absurd mem List.not_mem_nil⟩

/-- Whatever lines come in, from whom, and however the limits change: the list stays linked, without marks, and no ban
is freed twice or while it is listed. -/
theorem silences_hold (lines : List (Features × Bool × List Char)) :
    Holds (lines.foldl (fun s line => (forwardSilences covers line.1 line.2.1 s line.2.2).1) noSilences) := by
  have run {s : Memory} (holds : Holds s) :
      Holds (lines.foldl (fun s line => (forwardSilences covers line.1 line.2.1 s line.2.2).1) s) := by
    induction lines generalizing s with
    | nil => exact holds
    | cons line lines ih => exact ih (forwardSilences_holds line.1 line.2.1 holds line.2.2)
  exact run noSilences_holds

/-- Of two new silences the second one is refused where there is room for one. -/
theorem forwardSilences_updates_two :
    (forwardSilences covers ⟨1, 40⟩ true noSilences "a,b".toList).1.bans = [settle (readUpdate "a".toList)] :=
  have first := (forwardSilences_updates ⟨1, 40⟩ noSilences_holds "a,b".toList).2.2.2 (by decide +kernel)
  first.1.trans (by decide +kernel)

def updateEach (features : Features) (bans : List Ban) (cp : List Char) : List Ban :=
  let newban := readUpdate cp
  match applyBanTo covers bans newban with
  | (_, false) => bans
  | (bans', true) =>
    let left := bans'.filter counted
    if !newban.flags.add then left
    else if features.fits left.length (lengths left) newban then left ++ [settle newban]
    else bans

def line (features : Features) (s : Memory) (text : String) : Memory × List Reply :=
  forwardSilences covers features true s text.toList

def sixteen : String := "a,b,c,d,e,f,g,h,i,j,k,l,m,n,o,p"

/-- An addition that a later removal makes room for stays; the sixteenth update is not read; an
addition that an old silence covers is not reported; a list that was longer stays so. -/
theorem forwardSilences_not_each :
    (line ⟨1, 40⟩ (line ⟨1, 40⟩ noSilences "b").1 "a,-b").1.bans ≠
        (tokens "a,-b".toList).foldl (updateEach ⟨1, 40⟩) (line ⟨1, 40⟩ noSilences "b").1.bans ∧
      ((line ⟨20, 40⟩ noSilences sixteen).2 = [] ∧
        settle (readUpdate "p".toList) ∉ (line ⟨20, 40⟩ noSilences sixteen).1.bans ∧
        ∀ cp ∈ tokens sixteen.toList, cp ≠ "p".toList → covers (readUpdate cp) (readUpdate "p".toList) = false) ∧
      ((line ⟨2, 40⟩ (line ⟨2, 40⟩ noSilences "*!*@*").1 "a").2 = [] ∧
        settle (readUpdate "a".toList) ∉ (line ⟨2, 40⟩ (line ⟨2, 40⟩ noSilences "*!*@*").1 "a").1.bans) ∧
      (line ⟨1, 40⟩ (line ⟨2, 40⟩ noSilences "a,b").1 "-c").1.list.length = 2 := by
  decide +kernel

end Ircd.Silences
