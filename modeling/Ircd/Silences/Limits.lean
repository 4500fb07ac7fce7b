import Ircd.Silences.Forward
import Mathlib.Algebra.Order.BigOperators.Group.List

/-! The check of the limits on a list whose updates are linked already.

The chain is cut behind the last silence that was counted, at the first addition that does not
fit. Those before it stay; those behind it are out of the list, whether they fit or not.
-/

set_option autoImplicit false

namespace Ircd.Silences

open Ircd.Channels Ircd.Library

def marked (ban : Ban) : Bool := ban.flags.overlapped || ban.flags.del

def lengths (bans : List Ban) : Nat := (bans.map fun ban => ban.banstr.length).sum

section
variable (features : Features)

def Features.fits (siles totlength : Nat) (ban : Ban) : Bool :=
  siles < features.maxSiles && totlength + ban.banstr.length < features.maxSiles * features.avBanLen

/-- The additions that fit one after the other, and those that do not. -/
def fitting : Nat → Nat → List Ban → List Ban × List Ban
  | _, _, [] => ([], [])
  | siles, totlength, ban :: rest =>
    if features.fits siles totlength ban then
      let (admitted, refused) := fitting (siles + 1) (totlength + ban.banstr.length) rest
      (ban :: admitted, refused)
    else
      let (admitted, refused) := fitting siles totlength rest
      (admitted, ban :: refused)

def front : Nat → Nat → List Ban → List Ban
  | _, _, [] => []
  | siles, totlength, ban :: rest =>
    if features.fits siles totlength ban then ban :: front (siles + 1) (totlength + ban.banstr.length) rest else []

variable {features} {siles totlength : Nat} {bans : List Ban}

theorem fitting_head {ban : Ban} (refused : features.fits siles totlength ban = false) :
    (fitting features siles totlength bans).1.head? ≠ some ban := by
  induction bans with
  | nil => exact Option.some_ne_none ban ∘ Eq.symm
  | cons first rest ih =>
    rw [fitting]
    split <;> rename_i fits
    · intro same
      rw [Option.some.inj same] at fits
      exact Bool.false_ne_true (refused.symm.trans fits)
    · exact ih

/-- Where no addition that fits comes after one that does not, those before it are all that fit. -/
theorem front_of_prefix (first : (fitting features siles totlength bans).1 <+: bans) :
    front features siles totlength bans = (fitting features siles totlength bans).1 := by
  induction bans generalizing siles totlength with
  | nil => rfl
  | cons ban rest ih =>
    rw [fitting] at first ⊢
    rw [front]
    cases fits : features.fits siles totlength ban with
    | true =>
      simp only [fits, if_true] at first ⊢
      rw [ih ((List.cons_prefix_cons).mp first).2]
    | false =>
      simp only [fits, Bool.false_eq_true, if_false] at first ⊢
      have other : (fitting features siles totlength rest).1.head? ≠ some ban := fitting_head fits
      cases admitted : (fitting features siles totlength rest).1 with
      | nil => rfl
      | cons head tail =>
        rw [admitted] at first other
        exact absurd (congrArg some ((List.cons_prefix_cons).mp first).1) other

theorem front_length : siles + (front features siles totlength bans).length ≤ max features.maxSiles siles := by
  induction bans generalizing siles totlength with
  | nil => exact Nat.le_max_right _ _
  | cons ban rest ih =>
    rw [front]
    split <;> rename_i fits
    · have room : siles < features.maxSiles := of_decide_eq_true (Bool.and_eq_true_iff.mp fits).1
      have more : siles + 1 + (front features (siles + 1) (totlength + ban.banstr.length) rest).length ≤
        max features.maxSiles (siles + 1) := ih
      rw [List.length_cons]
      omega
    · exact Nat.le_max_right _ _

end

section
variable {s : Memory} {pre rest : List Ptr}

theorem Linked.load (linked : Linked s (pre ++ rest)) : s.load pre.getLast? = rest.head? := by
  rcases List.eq_nil_or_concat pre with rfl | ⟨before, last, rfl⟩
  · cases rest with
    | nil => exact linked.chain
    | cons p rest => exact linked.chain.1
  · rw [List.concat_eq_append, List.getLast?_concat]
    have chain := linked.chain
    rw [List.concat_eq_append, List.append_assoc] at chain
    exact chain.next_middle

theorem store_load (plast : Option Ptr) : s.store plast (s.load plast) = s := by
  cases plast with
  | none => rfl
  | some p => simp only [Memory.store, Memory.load, Function.update_eq_self]

theorem Linked.cut (linked : Linked s (pre ++ rest)) : Linked (s.store pre.getLast? none) pre := by
  have nodup := linked.nodup.of_append_left
  have made : ∀ p ∈ pre, p < s.made := fun p mem => linked.made p (List.mem_append_left _ mem)
  rcases List.eq_nil_or_concat pre with rfl | ⟨before, last, rfl⟩
  · exact ⟨rfl, nodup, made⟩
  · rw [List.concat_eq_append] at *
    rw [List.getLast?_concat]
    refine ⟨?_, nodup, made⟩
    have chain := linked.chain
    rw [List.append_assoc] at chain
    refine chain.ends_at (fun c mem => Function.update_of_ne ?_ _ _) (Function.update_self _ _ _)
    exact (List.nodup_append.mp nodup).2.2 c mem last List.mem_cons_self

end

/-- A silence that is counted: it is not marked and was there before the line. -/
def counted (ban : Ban) : Bool := !marked ban && !ban.flags.add

theorem countSile_eq (c : Count) (p : Ptr) :
    countSile c p =
      if counted (c.s.ban p) then
        { c with siles := c.siles + 1, totlength := c.totlength + (c.s.ban p).banstr.length, plast := some p }
      else c := by
  have flags : (!((c.s.ban p).flags.overlapped || (c.s.ban p).flags.del) && !(c.s.ban p).flags.add) =
      !((c.s.ban p).flags.overlapped || (c.s.ban p).flags.add || (c.s.ban p).flags.del) := by
    cases (c.s.ban p).flags.overlapped <;> cases (c.s.ban p).flags.del <;> cases (c.s.ban p).flags.add <;> rfl
  unfold countSile counted marked
  rw [flags]
  simp only [Bool.not_eq_true', ← Bool.not_eq_true, ite_not]

theorem limitSile_eq (features : Features) (c : Count) (p : Ptr) :
    limitSile features c p =
      if marked (c.s.ban p) then { c with accepted := c.accepted ++ [p] }
      else if features.fits c.siles c.totlength (c.s.ban p) then
        { c with
          siles := c.siles + 1
          totlength := c.totlength + (c.s.ban p).banstr.length
          plast := some p
          accepted := c.accepted ++ [p] }
      else
        { c with
          s := (c.s.store c.plast none).freeBan p
          replies := c.replies ++ [.sileListFull (c.s.ban p).banstr] } := by
  have limits : (decide (c.siles ≥ features.maxSiles) ||
      decide (c.totlength + (c.s.ban p).banstr.length ≥ features.maxSiles * features.avBanLen)) =
      !features.fits c.siles c.totlength (c.s.ban p) := by
    unfold Features.fits
    rw [Bool.not_and, ← decide_not, ← decide_not]
    simp only [Nat.not_lt, ge_iff_le]
  unfold limitSile
  simp only [limits]
  unfold marked
  cases (c.s.ban p).flags.overlapped || (c.s.ban p).flags.del
  · cases features.fits c.siles c.totlength (c.s.ban p) <;> rfl
  · rfl

theorem count_spec (s : Memory) (l : List Ptr) :
    ∃ pre suf, l = pre ++ suf ∧ (∀ p ∈ suf, counted (s.ban p) = false) ∧
      l.foldl countSile { s } =
        { s := s
          siles := (l.filter fun p => counted (s.ban p)).length
          totlength := lengths ((l.filter fun p => counted (s.ban p)).map s.ban)
          plast := pre.getLast? } := by
  induction l using List.reverseRecOn with
  | nil => exact ⟨[], [], rfl, fun p mem => absurd mem List.not_mem_nil, rfl⟩
  | append_singleton l p ih =>
    obtain ⟨pre, suf, rfl, uncounted, run⟩ := ih
    rw [List.foldl_append, run, List.foldl_cons, List.foldl_nil, countSile_eq]
    cases hit : counted (s.ban p) with
    | true =>
      have one_more : (pre ++ suf ++ [p]).filter (fun p => counted (s.ban p)) =
          (pre ++ suf).filter (fun p => counted (s.ban p)) ++ [p] := by
        rw [List.filter_append, List.filter_singleton, hit]
        rfl
      refine ⟨pre ++ suf ++ [p], [], (List.append_nil _).symm, fun q mem => absurd mem List.not_mem_nil, ?_⟩
      unfold lengths
      rw [if_pos rfl, one_more, List.length_append, List.map_append, List.map_append, List.sum_append,
        List.getLast?_concat]
      rfl
    | false =>
      have no_more : (pre ++ suf ++ [p]).filter (fun p => counted (s.ban p)) =
          (pre ++ suf).filter (fun p => counted (s.ban p)) := by
        rw [List.filter_append, List.filter_singleton, hit]
        exact List.append_nil _
      refine ⟨pre, suf ++ [p], List.append_assoc _ _ _, ?_, ?_⟩
      · intro q mem
        rcases List.mem_append.mp mem with before | now
        · exact uncounted q before
        · exact List.mem_singleton.mp now ▸ hit
      · rw [if_neg Bool.false_ne_true, no_more]

structure Limiting (s : Memory) (c : Count) (l rest : List Ptr) : Prop where
  linked : Linked c.s l
  ban : c.s.ban = s.ban
  made : c.s.made = s.made
  removals : ∀ p ∈ c.accepted ++ rest, (s.ban p).flags.add = false → (s.ban p).flags.del = true ∧ p ∉ l
  accepted_nodup : (c.accepted ++ rest).Nodup
  accepted_made : ∀ p ∈ c.accepted ++ rest, p < s.made
  freed_nodup : c.s.freed.Nodup
  freed_apart : ∀ p ∈ c.s.freed, p < s.made ∧ p ∉ l ∧ p ∉ c.accepted ++ rest

section
variable {features : Features} {s : Memory} {c : Count} {l rest : List Ptr} {p : Ptr}

theorem Limiting.stays (limiting : Limiting s c l (p :: rest)) {c' : Count} (memory : c'.s = c.s)
    (accepted : c'.accepted = c.accepted ++ [p]) : Limiting s c' l rest := by
  have all : c'.accepted ++ rest = c.accepted ++ p :: rest := by rw [accepted, List.append_assoc]; rfl
  constructor
  · rw [memory]
    exact limiting.linked
  · rw [memory]
    exact limiting.ban
  · rw [memory]
    exact limiting.made
  · rw [all]
    exact limiting.removals
  · rw [all]
    exact limiting.accepted_nodup
  · rw [all]
    exact limiting.accepted_made
  · rw [memory]
    exact limiting.freed_nodup
  · rw [memory, all]
    exact limiting.freed_apart

theorem Limiting.refused (limiting : Limiting s c l (p :: rest)) {pre : List Ptr} (shorter : pre ⊆ l)
    (outside : p ∉ pre) (cut : Linked (c.s.store c.plast none) pre) {c' : Count}
    (memory : c'.s = (c.s.store c.plast none).freeBan p) (accepted : c'.accepted = c.accepted) :
    Limiting s c' pre rest := by
  have fewer : c.accepted ++ rest ⊆ c.accepted ++ p :: rest := by
    intro q mem
    rcases List.mem_append.mp mem with before | behind
    · exact List.mem_append_left _ before
    · exact List.mem_append_right _ (List.mem_cons_of_mem p behind)
  have freed : c'.s.freed = c.s.freed ++ [p] := by
    rw [memory]
    exact congrArg (· ++ [p]) (c.s.freed_store _ _)
  have here : p ∈ c.accepted ++ p :: rest := List.mem_append_right _ List.mem_cons_self
  have once : p ∉ c.accepted ++ rest := by
    have distinct := List.perm_middle.nodup_iff.mp limiting.accepted_nodup
    exact (List.nodup_cons.mp distinct).1
  constructor
  · rw [memory]
    exact cut.freeBan outside
  · rw [memory]
    exact (c.s.ban_store _ _).trans limiting.ban
  · rw [memory]
    exact (c.s.made_store _ _).trans limiting.made
  · rw [accepted]
    intro q mem no_add
    obtain ⟨del, unlinked⟩ := limiting.removals q (fewer mem) no_add
    exact ⟨del, fun there => unlinked (shorter there)⟩
  · rw [accepted]
    exact (List.nodup_cons.mp (List.perm_middle.nodup_iff.mp limiting.accepted_nodup)).2
  · rw [accepted]
    exact fun q mem => limiting.accepted_made q (fewer mem)
  · rw [freed]
    refine List.nodup_append.mpr ⟨limiting.freed_nodup, List.nodup_singleton p, ?_⟩
    rintro a mem b there rfl
    exact (limiting.freed_apart a mem).2.2 (List.mem_singleton.mp there ▸ here)
  · rw [freed, accepted]
    intro q mem
    rcases List.mem_append.mp mem with before | now
    · obtain ⟨made, unlinked, unaccepted⟩ := limiting.freed_apart q before
      exact ⟨made, fun there => unlinked (shorter there), fun there => unaccepted (fewer there)⟩
    · rw [List.mem_singleton.mp now]
      exact ⟨limiting.accepted_made p here, outside, once⟩

def Closed (c : Count) (pre : List Ptr) : Prop := c.plast = pre.getLast? ∨ ∃ q ∉ pre, c.plast = some q

theorem Closed.cut (closed : Closed c l) (linked : Linked c.s l) : Linked (c.s.store c.plast none) l := by
  rcases closed with last | ⟨q, outside, elsewhere⟩
  · have whole : Linked c.s (l ++ []) := by rwa [List.append_nil]
    rw [last]
    exact whole.cut
  · rw [elsewhere]
    have same : ∀ p ∈ l, Function.update c.s.next q none p = c.s.next p := fun p mem =>
      Function.update_of_ne (ne_of_mem_of_not_mem mem outside) _ _
    exact linked.congr rfl same (Nat.le_refl _)

def unmarked (s : Memory) (l : List Ptr) : List Ptr := l.filter fun p => !marked (s.ban p)

theorem unmarked_cons_of_marked (hit : marked (s.ban p) = true) : unmarked s (p :: l) = unmarked s l :=
  List.filter_cons_of_neg (by rw [hit]; exact Bool.false_ne_true)

theorem unmarked_cons (alive : marked (s.ban p) = false) : unmarked s (p :: l) = p :: unmarked s l :=
  List.filter_cons_of_pos (by rw [alive]; rfl)

theorem limit_closed (limiting : Limiting s c l rest) (closed : Closed c l)
    (outside : ∀ p ∈ unmarked s rest, p ∉ l) :
    Limiting s (rest.foldl (limitSile features) c) l [] ∧
      (rest.foldl (limitSile features) c).replies =
        c.replies ++ ((fitting features c.siles c.totlength ((unmarked s rest).map s.ban)).2.map fun ban =>
          .sileListFull ban.banstr) := by
  induction rest generalizing c with
  | nil => exact ⟨limiting, (List.append_nil _).symm⟩
  | cons p rest ih =>
    rw [List.foldl_cons, limitSile_eq, limiting.ban]
    cases hit : marked (s.ban p) with
    | true =>
      rw [if_pos rfl, unmarked_cons_of_marked hit] at *
      exact ih (limiting.stays rfl rfl) closed outside
    | false =>
      rw [unmarked_cons hit] at *
      have out := outside p List.mem_cons_self
      have others : ∀ q ∈ unmarked s rest, q ∉ l := fun q mem => outside q (List.mem_cons_of_mem p mem)
      rw [if_neg Bool.false_ne_true, List.map_cons, fitting]
      cases fits : features.fits c.siles c.totlength (s.ban p) with
      | true =>
        rw [if_pos rfl, if_pos rfl]
        exact ih (limiting.stays rfl rfl) (.inr ⟨p, out, rfl⟩) others
      | false =>
        rw [if_neg Bool.false_ne_true, if_neg Bool.false_ne_true]
        have cut := closed.cut limiting.linked
        obtain ⟨limiting', replies⟩ := ih
          (c := { c with
            s := (c.s.store c.plast none).freeBan p
            replies := c.replies ++ [.sileListFull (s.ban p).banstr] })
          (limiting.refused (List.Subset.refl l) out cut rfl rfl) closed others
        refine ⟨limiting', replies.trans ?_⟩
        rw [List.append_assoc]
        rfl

/-- The check cuts the list behind the additions before the first one that does not fit. -/
theorem limit_open {pre suf : List Ptr} (limiting : Limiting s c (pre ++ suf) rest)
    (behind : c.plast = pre.getLast?) (ahead : unmarked s suf = unmarked s rest) :
    ∃ l', Limiting s (rest.foldl (limitSile features) c) l' [] ∧
      (rest.foldl (limitSile features) c).replies =
        c.replies ++ ((fitting features c.siles c.totlength ((unmarked s rest).map s.ban)).2.map fun ban =>
          .sileListFull ban.banstr) ∧
      (unmarked s l').map s.ban = (unmarked s pre).map s.ban ++
        front features c.siles c.totlength ((unmarked s rest).map s.ban) := by
  induction rest generalizing c pre suf with
  | nil =>
    refine ⟨pre ++ suf, limiting, (List.append_nil _).symm, ?_⟩
    have all : unmarked s (pre ++ suf) = unmarked s pre ++ unmarked s suf := List.filter_append _ _
    rw [all, ahead]
    exact List.map_append
  | cons p rest ih =>
    rw [List.foldl_cons, limitSile_eq, limiting.ban]
    cases hit : marked (s.ban p) with
    | true =>
      rw [if_pos rfl, unmarked_cons_of_marked hit] at *
      exact ih (limiting.stays rfl rfl) behind ahead
    | false =>
      rw [unmarked_cons hit] at *
      rw [if_neg Bool.false_ne_true, List.map_cons, fitting, front]
      obtain ⟨mid, suf', rfl, all_marked, -, ahead'⟩ := List.filter_eq_cons_iff.mp ahead
      have between : unmarked s mid = [] := List.filter_eq_nil_iff.mpr all_marked
      cases fits : features.fits c.siles c.totlength (s.ban p) with
      | true =>
        rw [if_pos rfl, if_pos rfl, if_pos rfl]
        have split : pre ++ (mid ++ p :: suf') = (pre ++ mid ++ [p]) ++ suf' := by
          simp only [List.append_assoc, List.singleton_append]
        rw [split] at limiting
        have last : some p = (pre ++ mid ++ [p]).getLast? := List.getLast?_concat.symm
        obtain ⟨l', limiting', replies, bans⟩ := ih
          (c := { c with
            siles := c.siles + 1
            totlength := c.totlength + (s.ban p).banstr.length
            plast := some p
            accepted := c.accepted ++ [p] })
          (limiting.stays rfl rfl) last ahead'
        refine ⟨l', limiting', replies, bans.trans ?_⟩
        have first : unmarked s (pre ++ mid ++ [p]) = unmarked s pre ++ [p] := by
          have alone : unmarked s [p] = [p] := unmarked_cons hit
          unfold unmarked at alone between ⊢
          rw [List.filter_append, List.filter_append, alone, between, List.append_nil]
        rw [first, List.map_append, List.append_assoc]
        rfl
      | false =>
        rw [if_neg Bool.false_ne_true, if_neg Bool.false_ne_true, if_neg Bool.false_ne_true]
        have apart := (List.nodup_append.mp limiting.linked.nodup).2.2
        have cut : Linked (c.s.store c.plast none) pre := behind ▸ limiting.linked.cut
        have out : p ∉ pre := fun mem => apart p mem p (List.mem_append_right _ List.mem_cons_self) rfl
        have others : ∀ q ∈ unmarked s rest, q ∉ pre := by
          intro q mem there
          have mem' : q ∈ suf'.filter fun p => !marked (s.ban p) := ahead'.symm ▸ mem
          have in_suf := List.mem_cons_of_mem p (List.mem_of_mem_filter mem')
          exact apart q there q (List.mem_append_right mid in_suf) rfl
        obtain ⟨limiting', replies⟩ := limit_closed
          (c := { c with
            s := (c.s.store c.plast none).freeBan p
            replies := c.replies ++ [.sileListFull (s.ban p).banstr] })
          (limiting.refused (List.subset_append_left _ _) out cut rfl rfl) (.inl behind) others
        refine ⟨pre, limiting', replies.trans ?_, (List.append_nil _).symm⟩
        rw [List.append_assoc]
        rfl

theorem count_none (none_counted : ∀ p ∈ l, counted (c.s.ban p) = false) : l.foldl countSile c = c := by
  induction l with
  | nil => rfl
  | cons p l ih =>
    rw [List.foldl_cons, countSile_eq, none_counted p List.mem_cons_self]
    exact ih fun q mem => none_counted q (List.mem_cons_of_mem p mem)

theorem counted_of_add (add : (s.ban p).flags.add = true) : counted (s.ban p) = false := by
  unfold counted
  rw [add, Bool.not_true, Bool.and_false]

theorem counted_of_no_add (no_add : (s.ban p).flags.add = false) : counted (s.ban p) = !marked (s.ban p) := by
  unfold counted
  rw [no_add, Bool.not_false, Bool.and_true]

section
variable {old adds accepted : List Ptr}

theorem Applied.adds_add (applied : Applied old s adds accepted) (mem : p ∈ adds) : (s.ban p).flags.add = true :=
  (applied.adds_accepted mem).2

theorem Applied.unmarked_accepted (applied : Applied old s adds accepted) :
    unmarked s accepted = unmarked s adds := by
  unfold unmarked
  rw [← applied.adds_eq, List.filter_filter]
  refine List.filter_congr fun p mem => ?_
  cases add : (s.ban p).flags.add with
  | true => rw [Bool.and_true]
  | false =>
    have del := (applied.removals p mem add).1
    unfold marked
    rw [del, Bool.or_true]
    rfl

theorem Applied.silences (applied : Applied old s adds accepted) :
    ((old ++ adds).map s.ban).filter counted = (old.filter fun p => counted (s.ban p)).map s.ban := by
  have no_adds : adds.filter (fun p => counted (s.ban p)) = [] :=
    List.filter_eq_nil_iff.mpr fun p mem => Bool.eq_false_iff.mp (counted_of_add (applied.adds_add mem))
  rw [List.filter_map, List.filter_append]
  exact congrArg (List.map s.ban) ((congrArg _ no_adds).trans (List.append_nil _))

theorem Applied.additions (applied : Applied old s adds accepted) :
    (((old ++ adds).map s.ban).filter fun ban => !marked ban && ban.flags.add) = (unmarked s adds).map s.ban := by
  have no_old : old.filter (fun p => !marked (s.ban p) && (s.ban p).flags.add) = [] :=
    List.filter_eq_nil_iff.mpr fun p mem => by
      rw [applied.old_flags p mem, Bool.and_false]
      exact Bool.false_ne_true
  have all_adds : adds.filter (fun p => !marked (s.ban p) && (s.ban p).flags.add) = unmarked s adds :=
    List.filter_congr fun p mem => by rw [applied.adds_add mem, Bool.and_true]
  rw [List.filter_map, List.filter_append]
  exact congrArg (List.map s.ban) (congrArg₂ (· ++ ·) no_old all_adds)

theorem Applied.limiting (applied : Applied old s adds accepted) {c : Count} (memory : c.s = s)
    (all : c.accepted ++ rest = accepted) : Limiting s c (old ++ adds) rest := by
  have in_adds : ∀ p ∈ old ++ adds, p ∉ old → p ∈ adds := fun p mem outside =>
    (List.mem_append.mp mem).resolve_left outside
  constructor
  · exact memory ▸ applied.linked
  · rw [memory]
  · rw [memory]
  · rw [all]
    intro p mem no_add
    obtain ⟨del, outside⟩ := applied.removals p mem no_add
    exact ⟨del, fun there => Bool.false_ne_true (no_add.symm.trans (applied.adds_add (in_adds p there outside)))⟩
  · rw [all]
    exact applied.accepted_nodup
  · rw [all]
    exact applied.accepted_made
  · rw [memory]
    exact applied.freed_nodup
  · rw [memory, all]
    intro p mem
    obtain ⟨made, outside, unaccepted⟩ := applied.freed_apart p mem
    exact ⟨made, fun there => unaccepted (applied.adds_accepted (in_adds p there outside)).1, unaccepted⟩

theorem Applied.limit (applied : Applied old s adds accepted) (features : Features) :
    ∃ l', Limiting s (limitSiles features s accepted) l' [] ∧
      let linked := (old ++ adds).map s.ban
      let silences := linked.filter counted
      let additions := linked.filter fun ban => !marked ban && ban.flags.add
      (limitSiles features s accepted).replies =
        (fitting features silences.length (lengths silences) additions).2.map (fun ban => .sileListFull ban.banstr) ∧
      (unmarked s l').map s.ban = silences ++ front features silences.length (lengths silences) additions := by
  have same_marks : ∀ p ∈ old, counted (s.ban p) = !marked (s.ban p) := fun p mem =>
    counted_of_no_add (applied.old_flags p mem)
  obtain ⟨pre, suf, split, uncounted, run⟩ := count_spec s old
  have no_suf : suf.filter (fun p => counted (s.ban p)) = [] :=
    List.filter_eq_nil_iff.mpr fun p mem => Bool.eq_false_iff.mp (uncounted p mem)
  have suf_marked : unmarked s suf = [] := by
    refine (List.filter_congr fun p mem => ?_).trans no_suf
    exact (same_marks p (split ▸ List.mem_append_right pre mem)).symm
  have pre_counted : unmarked s pre = old.filter fun p => counted (s.ban p) := by
    rw [split, List.filter_append, no_suf, List.append_nil]
    exact List.filter_congr fun p mem => (same_marks p (split ▸ List.mem_append_left suf mem)).symm
  have ahead : unmarked s (suf ++ adds) = unmarked s accepted := by
    rw [applied.unmarked_accepted]
    exact (List.filter_append _ _).trans (congrArg (· ++ unmarked s adds) suf_marked)
  have start := applied.linked.list
  unfold limitSiles
  rw [start, List.foldl_append, run, count_none fun p mem => counted_of_add (applied.adds_add mem)]
  dsimp only
  rw [applied.silences, applied.additions, ← applied.unmarked_accepted, List.length_map, ← pre_counted]
  have limiting := applied.limiting (c :=
    { s := s
      siles := (unmarked s pre).length
      totlength := lengths ((unmarked s pre).map s.ban)
      plast := pre.getLast? }) rfl rfl
  rw [split, List.append_assoc] at limiting
  exact limit_open limiting rfl ahead

end

end

end Ircd.Silences
