import Ircd.Channels.ModeParse
import Ircd.Net.IpText
import Mathlib.Data.List.Perm.Basic
import Mathlib.Data.List.Pairwise

/-! The bans of a MODE line in the list of the channel.

`mode_parse_ban` links the bans of a line, which live in the state of the parser, behind those of the
channel and marks what they cover; `mode_process_bans` then takes them out again and puts allocated
copies in. The marks stand for a plain list of bans from which what is covered is dropped at once.
-/

set_option autoImplicit false

namespace Ircd.Channels
open Ircd.Text Ircd.Net

/-! ### Masks -/

def nuPart (banstr : List Char) : List Char := (banstr.reverse.dropWhile (· ≠ '@')).tail.reverse

def hostPart (banstr : List Char) : List Char := (banstr.reverse.takeWhile (· ≠ '@')).reverse

/-- The address of a ban, as `set_ban_mask` reads it. -/
def banAddress (banstr : List Char) : Option IpMask := if '@' ∈ banstr then ipmaskParse true (hostPart banstr) else none

/-- `bmatch`, given `mmatch`: the old ban covers the new one. -/
def bmatch (mmatch : List Char → List Char → Bool) (old new : Ban) : Bool :=
  if !old.flags.exception && new.flags.exception then false
  else if !(old.flags.ipmask && new.flags.ipmask) then mmatch old.banstr new.banstr
  else
    match banAddress old.banstr, banAddress new.banstr with
    | some oldMask, some newMask =>
      if oldMask.pbits.getD 0 > newMask.pbits.getD 0 then false
      else if !mmatch (nuPart old.banstr) (nuPart new.banstr) then false
      else if !newMask.ip.ipmaskCheck oldMask.ip (oldMask.pbits.getD 0) then false
      else mmatch old.banstr new.banstr
    | _, _ => mmatch old.banstr new.banstr

/-! ### The code -/

structure Cell where
  ban : Ban
  temp : Bool
  deriving DecidableEq, Repr

/-- A `+b` or `-b` that `mode_parse_ban` comes to act on, with its mask made canonical. -/
structure BanItem where
  dir : Dir
  mask : List Char
  who : List Char
  when : Nat
  deriving DecidableEq, Repr

def BanItem.ban (it : BanItem) : Ban :=
  ⟨it.mask, it.who, it.when, ⟨(banAddress it.mask).isSome, false, false, it.dir = .del, it.dir = .add, false, false⟩⟩

def Cell.mark (c : Cell) : Cell :=
  { c with ban := { c.ban with flags := { c.ban.flags with overlapped := true, del := true } } }

section
variable (covers : Ban → Ban → Bool)

def linkBan (cells : List Cell) (it : BanItem) : List Cell :=
  let marked := cells.map fun c => if covers it.ban c.ban then c.mark else c
  match it.dir with
  | .add =>
    if cells.any fun c => covers c.ban it.ban && !c.ban.flags.del then cells else marked ++ [⟨it.ban, true⟩]
  | .del => marked

end

/-- The limits on the list when a local user, not by OPMODE, adds to it. -/
structure Limits where
  limited : Bool
  maxBans : Nat
  avBanLen : Nat
  deriving DecidableEq, Repr

def Limits.full (limits : Limits) (count len : Nat) : Bool :=
  limits.limited && (len > limits.avBanLen * limits.maxBans || count > limits.maxBans)

/-- The loop of `mode_process_bans`: the number and length of the bans, the bans that were made, the
cells that stay linked, whether the list was cut before this one, the modes that were queued and
how often the list was changed. -/
structure Walk where
  count : Nat
  len : Nat
  made : List Ban
  kept : List Cell
  cut : Bool
  queue : List (Dir × List Char)
  changed : Nat

def processBan (limits : Limits) (set bounce : Bool) (w : Walk) (c : Cell) : Walk :=
  let count := w.count + 1
  let len := w.len + c.ban.banstr.length
  let keep (c : Cell) : List Cell := if w.cut then w.kept else w.kept ++ [c]
  if c.ban.flags.del && c.ban.flags.add then { w with cut := true }
  else if c.ban.flags.del then
    let w := { w with queue := w.queue ++ [(Dir.del, c.ban.banstr)] }
    if set then { w with changed := w.changed + 1 }
    else { w with count := count, len := len, kept := keep { c with ban := c.ban.onlyIpMask } }
  else if c.ban.flags.add then
    let w := { w with cut := true }
    if c.ban.flags.overlapped && !bounce then w
    else if set && limits.full count len then w
    else
      let w := { w with count := count, len := len, queue := w.queue ++ [(Dir.add, c.ban.banstr)] }
      if set then { w with made := c.ban.onlyIpMask :: w.made, changed := w.changed + 1 } else w
  else { w with count := count, len := len, kept := keep c }

/-- `mode_process_bans`: the list, the modes and whether the ban caches are invalidated. -/
def processBans (limits : Limits) (set bounce : Bool) (cells : List Cell) : Walk :=
  cells.foldl (processBan limits set bounce) ⟨0, 0, [], [], false, [], 0⟩

def Walk.cells (w : Walk) : List Cell := w.made.map (⟨·, false⟩) ++ w.kept

/-- How `mode_parse` comes to its end: over `mode_process_bans`, by the early return for a timestamp
of a server that has not read our burst, or by the return without a mode buffer. -/
inductive Ending where
  | processed (set bounce : Bool)
  | ignored
  | unbuffered
  deriving DecidableEq, Repr

/-- `MODE_PARSE_SET`; the early return is only reached with it. -/
def Ending.sets : Ending → Bool
  | .processed set _ => set
  | .ignored => true
  | .unbuffered => false

def baseCells (old : List Ban) (items : List BanItem) : List Cell :=
  (if items = [] then old else old.map Ban.clean).map (⟨·, false⟩)

/-- What `mode_parse` makes of the ban list, with the ban modes that it leaves in the buffer. -/
def parseBans (covers : Ban → Ban → Bool) (limits : Limits) (old : List Ban) (items : List BanItem) (ending : Ending) :
    List Cell × List (Dir × List Char) :=
  let cells := items.foldl (linkBan covers) (baseCells old items)
  match ending with
  | .processed set bounce =>
    if items = [] then (cells, [])
    else ((processBans limits set bounce cells).cells, (processBans limits set bounce cells).queue)
  | _ => (cells, [])

/-! ### What it is for -/

def activeStep (covers : Ban → Ban → Bool) (active : List Cell) (it : BanItem) : List Cell :=
  let left := active.filter fun c => !covers it.ban c.ban
  match it.dir with
  | .add => if active.any fun c => covers c.ban it.ban then active else left ++ [⟨it.ban, true⟩]
  | .del => left

/-- The new bans for which there is room behind `count` bans of length `len`. -/
def accept (limits : Limits) : Nat → Nat → List Ban → List Ban
  | _, _, [] => []
  | count, len, ban :: rest =>
    if limits.full (count + 1) (len + ban.banstr.length) then accept limits count len rest
    else ban :: accept limits (count + 1) (len + ban.banstr.length) rest

def totalLength (bans : List Ban) : Nat := (bans.map (·.banstr.length)).sum

/-- The changes that take effect: a `+b` does unless a ban that counts covers it. -/
def applied (covers : Ban → Ban → Bool) : List Cell → List BanItem → List BanItem
  | _, [] => []
  | active, it :: items =>
    if it.dir = .add ∧ active.any (fun c => covers c.ban it.ban) then applied covers active items
    else it :: applied covers (activeStep covers active it) items

section
variable (covers : Ban → Ban → Bool) (limits : Limits) (old : List Ban) (items : List BanItem)

def activeAfter : List Cell := items.foldl (activeStep covers) (baseCells old items)

def coveredBy (ban : Ban) : Bool := (applied covers (baseCells old items) items).any fun it => covers it.ban ban

def survivors : List Ban := ((baseCells old items).map Cell.ban).filter fun ban => !coveredBy covers old items ban

def removed : List Ban := ((baseCells old items).map Cell.ban).filter (coveredBy covers old items)

def accepted : List Ban :=
  accept limits (survivors covers old items).length (totalLength (survivors covers old items))
    (((activeAfter covers old items).filter (·.temp)).map Cell.ban)

end

def Apart (covers : Ban → Ban → Bool) (bans : List Ban) : Prop :=
  bans.Pairwise fun a b => covers a b = false ∧ covers b a = false

/-- The list has no temporary ban; if the line is to take effect, the list is the old one without
the bans that are covered and with the new ones, the queued modes are that difference, and no ban
covers another one if none did before. -/
structure BansRight (covers : Ban → Ban → Bool) (limits : Limits) (old : List Ban) (items : List BanItem)
    (ending : Ending) : Prop where
  allocated : ∀ c ∈ (parseBans covers limits old items ending).1, c.temp = false
  list : ending.sets = true → (parseBans covers limits old items ending).1.map Cell.ban =
    ((accepted covers limits old items).map Ban.onlyIpMask).reverse ++ survivors covers old items
  queue : ending.sets = true → (parseBans covers limits old items ending).2 =
    (removed covers old items).map (fun ban => (Dir.del, ban.banstr)) ++
      (accepted covers limits old items).map (fun ban => (Dir.add, ban.banstr))
  apart : ending.sets = true → Apart covers old → Apart covers ((parseBans covers limits old items ending).1.map Cell.ban)

/-! ### Marks and the bans that count -/

def Ban.Alike (a b : Ban) : Prop :=
  a.banstr = b.banstr ∧ a.flags.ipmask = b.flags.ipmask ∧ a.flags.exception = b.flags.exception

def Blind (covers : Ban → Ban → Bool) : Prop :=
  ∀ a a' b b' : Ban, a.Alike a' → b.Alike b' → covers a b = covers a' b'

theorem bmatch_blind (mmatch : List Char → List Char → Bool) : Blind (bmatch mmatch) := by
  rintro a a' b b' ⟨text, ip, exception⟩ ⟨text', ip', exception'⟩
  unfold bmatch
  rw [text, ip, exception, text', ip', exception']

theorem Ban.Alike.refl (a : Ban) : a.Alike a := ⟨rfl, rfl, rfl⟩

theorem Ban.clean_alike (a : Ban) : a.clean.Alike a := ⟨rfl, rfl, rfl⟩

section
variable {covers : Ban → Ban → Bool}

theorem linkBan_active (cells : List Cell) (it : BanItem) :
    (linkBan covers cells it).filter (fun c => !c.ban.flags.del) =
      activeStep covers (cells.filter fun c => !c.ban.flags.del) it := by
  have marked : (cells.map fun c => if covers it.ban c.ban then c.mark else c).filter (fun c => !c.ban.flags.del) =
      (cells.filter fun c => !c.ban.flags.del).filter fun c => !covers it.ban c.ban := by
    induction cells with
    | nil => rfl
    | cons c cells ih =>
      rw [List.map_cons, List.filter_cons, List.filter_cons, ih]
      cases hit : covers it.ban c.ban with
      | true =>
        have gone : c.mark.ban.flags.del = true := rfl
        simp only [if_true, gone, Bool.not_true, Bool.false_eq_true, if_false]
        split
        · rw [List.filter_cons, hit]
          rfl
        · rfl
      | false =>
        simp only [Bool.false_eq_true, if_false]
        split
        · rw [List.filter_cons, hit]
          rfl
        · rfl
  have counted : (cells.any fun c => covers c.ban it.ban && !c.ban.flags.del) =
      (cells.filter fun c => !c.ban.flags.del).any fun c => covers c.ban it.ban := by
    rw [List.any_filter]
    exact List.any_congr rfl fun c => Bool.and_comm _ _
  unfold linkBan activeStep
  cases dir : it.dir with
  | add =>
    dsimp only
    rw [counted]
    split
    · rfl
    · have live : (!it.ban.flags.del) = true := by simp [BanItem.ban, dir]
      rw [List.filter_append, marked, List.filter_cons, if_pos live]
      rfl
  | del => exact marked

def Cell.markedBy (covers : Ban → Ban → Bool) (done : List BanItem) (c : Cell) : Cell :=
  if done.any fun it => covers it.ban c.ban then c.mark else c

theorem Cell.markedBy_temp (done : List BanItem) (c : Cell) : (c.markedBy covers done).temp = c.temp := by
  unfold Cell.markedBy
  split <;> rfl

/-- The list in the middle of a line: the bans of the channel with the marks of the changes so far,
and the temporary bans behind them. -/
structure Shape (covers : Ban → Ban → Bool) (base : List Cell) (done : List BanItem) (cells back : List Cell) : Prop where
  split : cells = base.map (Cell.markedBy covers done) ++ back
  temps : ∀ c ∈ back, c.temp = true ∧ c.ban.flags.add = true
  marks : ∀ c ∈ back, c.ban.flags.overlapped = c.ban.flags.del

theorem markedBy_step (done : List BanItem) (it : BanItem) (c : Cell) :
    (if covers it.ban (c.markedBy covers done).ban then (c.markedBy covers done).mark else c.markedBy covers done) =
      c.markedBy covers (done ++ [it]) := by
  unfold Cell.markedBy
  rw [List.any_append, List.any_cons, List.any_nil, Bool.or_false]
  cases before : done.any fun it => covers it.ban c.ban with
  | true =>
    simp only [if_true, Bool.true_or]
    split <;> rfl
  | false => simp only [Bool.false_eq_true, if_false, Bool.false_or]

theorem Shape.link {base : List Cell} {done : List BanItem} {cells back : List Cell}
    (shape : Shape covers base done cells back) {it : BanItem}
    (effect : ¬ (it.dir = .add ∧ (cells.any fun c => covers c.ban it.ban && !c.ban.flags.del) = true)) :
    ∃ back', Shape covers base (done ++ [it]) (linkBan covers cells it) back' ∧
      (it.dir = .add → back' ≠ []) ∧ (back ≠ [] → back' ≠ []) ∧ (it.dir = .del → back = [] → back' = []) := by
  obtain ⟨split, temps, marks⟩ := shape
  have marked : (cells.map fun c => if covers it.ban c.ban then c.mark else c) =
      base.map (Cell.markedBy covers (done ++ [it])) ++
        back.map fun c => if covers it.ban c.ban then c.mark else c := by
    rw [split, List.map_append, List.map_map]
    congr 1
    exact List.map_congr_left fun c _ => markedBy_step done it c
  have temps' : ∀ c ∈ back.map (fun c => if covers it.ban c.ban then c.mark else c),
      c.temp = true ∧ c.ban.flags.add = true := by
    intro c mem
    obtain ⟨before, there, rfl⟩ := List.mem_map.mp mem
    split
    · exact temps before there
    · exact temps before there
  have marks' : ∀ c ∈ back.map (fun c => if covers it.ban c.ban then c.mark else c),
      c.ban.flags.overlapped = c.ban.flags.del := by
    intro c mem
    obtain ⟨before, there, rfl⟩ := List.mem_map.mp mem
    split
    · rfl
    · exact marks before there
  unfold linkBan
  cases dir : it.dir with
  | add =>
    have free : (cells.any fun c => covers c.ban it.ban && !c.ban.flags.del) = false := by
      by_contra blocked
      exact effect ⟨dir, by simpa using blocked⟩
    simp only [free, Bool.false_eq_true, if_false, marked, List.append_assoc]
    refine ⟨_, ⟨rfl, ?_, ?_⟩, by simp, by simp, nofun⟩
    · intro c mem
      rcases List.mem_append.mp mem with mem | mem
      · exact temps' c mem
      · rw [List.mem_singleton.mp mem]
        exact ⟨rfl, by simp [BanItem.ban, dir]⟩
    · intro c mem
      rcases List.mem_append.mp mem with mem | mem
      · exact marks' c mem
      · rw [List.mem_singleton.mp mem]
        simp [BanItem.ban, dir]
  | del =>
    simp only [marked]
    refine ⟨_, ⟨rfl, temps', marks'⟩, nofun, ?_, ?_⟩
    · simp
    · rintro - rfl
      rfl

/-- A line: the changes that take effect are marked, and there are temporary bans if and only if one
of them is a `+b`. -/
theorem Shape.run {base : List Cell} {done : List BanItem} {cells back : List Cell}
    (shape : Shape covers base done cells back) (items : List BanItem) :
    ∃ back', Shape covers base (done ++ applied covers (cells.filter fun c => !c.ban.flags.del) items)
        (items.foldl (linkBan covers) cells) back' ∧
      (back' = [] ↔ back = [] ∧ ∀ it ∈ applied covers (cells.filter fun c => !c.ban.flags.del) items, it.dir = .del) := by
  induction items generalizing done cells back with
  | nil => exact ⟨back, by simpa [applied] using shape, by simp [applied]⟩
  | cons it items ih =>
    have counted : (cells.any fun c => covers c.ban it.ban && !c.ban.flags.del) =
        (cells.filter fun c => !c.ban.flags.del).any fun c => covers c.ban it.ban := by
      rw [List.any_filter]
      exact List.any_congr rfl fun c => Bool.and_comm _ _
    rw [List.foldl_cons, applied, ← linkBan_active, ← counted]
    by_cases refused : it.dir = .add ∧ (cells.any fun c => covers c.ban it.ban && !c.ban.flags.del) = true
    · have same : linkBan covers cells it = cells := by
        unfold linkBan
        rw [refused.1]
        exact if_pos refused.2
      rw [if_pos refused, same]
      exact ih shape
    · rw [if_neg refused]
      obtain ⟨mid, shape', adds, keeps, none_left⟩ := shape.link refused
      obtain ⟨back', final, temps⟩ := ih shape'
      refine ⟨back', by simpa using final, ?_⟩
      rw [temps, List.forall_mem_cons]
      constructor
      · rintro ⟨empty, dels⟩
        have was_empty : back = [] := by
          by_contra some_back
          exact keeps some_back empty
        refine ⟨was_empty, ?_, dels⟩
        cases dir : it.dir with
        | add => exact absurd empty (adds dir)
        | del => rfl
      · rintro ⟨empty, del, dels⟩
        exact ⟨none_left del empty, dels⟩

/-! ### The walk over the marks -/

section
variable (limits : Limits) (bounce : Bool)

def Cell.Plain (c : Cell) : Prop := c.temp = false ∧ c.ban.flags.add = false ∧ c.ban.flags.del = false

variable (covers) in
/-- Over the bans of the channel: those without a mark stay and count, the others are taken off. -/
theorem processBans_front {base : List Cell} (plain : ∀ c ∈ base, c.Plain) (done : List BanItem) (w : Walk)
    (whole : w.cut = false) :
    (base.map (Cell.markedBy covers done)).foldl (processBan limits true bounce) w =
      let covered := fun c : Cell => done.any fun it => covers it.ban c.ban
      let stay := base.filter fun c => !covered c
      { w with
        count := w.count + stay.length
        len := w.len + totalLength (stay.map Cell.ban)
        kept := w.kept ++ stay
        queue := w.queue ++ (base.filter covered).map fun c => (Dir.del, c.ban.banstr)
        changed := w.changed + (base.filter covered).length } := by
  induction base generalizing w with
  | nil => simp [totalLength]
  | cons c base ih =>
    obtain ⟨-, add, del⟩ := plain c List.mem_cons_self
    have rest : ∀ c ∈ base, c.Plain := fun c mem => plain c (List.mem_cons_of_mem _ mem)
    rw [List.map_cons, List.foldl_cons]
    cases covered : done.any fun it => covers it.ban c.ban with
    | true =>
      have step : processBan limits true bounce w (c.markedBy covers done) =
          { w with queue := w.queue ++ [(Dir.del, c.ban.banstr)], changed := w.changed + 1 } := by
        simp [processBan, Cell.markedBy, covered, Cell.mark, add]
      rw [step]
      refine (ih rest _ (by exact whole)).trans ?_
      simp only [List.filter_cons, covered, Bool.not_true, Bool.false_eq_true, if_false, if_true, List.map_cons,
        List.append_assoc, List.singleton_append, List.length_cons]
      congr 1
      omega
    | false =>
      have step : processBan limits true bounce w (c.markedBy covers done) =
          { w with count := w.count + 1, len := w.len + c.ban.banstr.length, kept := w.kept ++ [c] } := by
        simp [processBan, Cell.markedBy, covered, add, del, whole]
      rw [step]
      refine (ih rest _ (by exact whole)).trans ?_
      simp only [List.filter_cons, covered, Bool.not_false, Bool.false_eq_true, if_false, if_true, List.map_cons,
        List.append_assoc, List.singleton_append, List.length_cons, totalLength, List.sum_cons]
      congr 1 <;> omega

theorem processBans_back {back : List Cell} (temps : ∀ c ∈ back, c.temp = true ∧ c.ban.flags.add = true)
    (marks : ∀ c ∈ back, c.ban.flags.overlapped = c.ban.flags.del) (w : Walk) :
    let news := accept limits w.count w.len ((back.filter fun c => !c.ban.flags.del).map Cell.ban)
    (back.foldl (processBan limits true bounce) w).made = (news.map Ban.onlyIpMask).reverse ++ w.made ∧
      (back.foldl (processBan limits true bounce) w).kept = w.kept ∧
      (back.foldl (processBan limits true bounce) w).queue =
        w.queue ++ news.map (fun ban => (Dir.add, ban.banstr)) ∧
      (back.foldl (processBan limits true bounce) w).changed = w.changed + news.length := by
  induction back generalizing w with
  | nil => simp [accept]
  | cons c back ih =>
    have add := (temps c List.mem_cons_self).2
    have overlapped := marks c List.mem_cons_self
    have temps' : ∀ c ∈ back, c.temp = true ∧ c.ban.flags.add = true := fun c mem => temps c (List.mem_cons_of_mem _ mem)
    have marks' : ∀ c ∈ back, c.ban.flags.overlapped = c.ban.flags.del := fun c mem => marks c (List.mem_cons_of_mem _ mem)
    rw [List.foldl_cons]
    cases del : c.ban.flags.del with
    | true =>
      have step : processBan limits true bounce w c = { w with cut := true } := by simp [processBan, add, del]
      rw [step]
      simp only [List.filter_cons, del, Bool.not_true, Bool.false_eq_true, if_false]
      exact ih temps' marks' { w with cut := true }
    | false =>
      rw [del] at overlapped
      cases full : limits.full (w.count + 1) (w.len + c.ban.banstr.length) with
      | true =>
        have step : processBan limits true bounce w c = { w with cut := true } := by
          simp [processBan, add, del, overlapped, full]
        rw [step]
        simp only [List.filter_cons, del, Bool.not_false, if_true, List.map_cons, accept, full]
        exact ih temps' marks' { w with cut := true }
      | false =>
        have step : processBan limits true bounce w c =
            { w with
              cut := true
              count := w.count + 1
              len := w.len + c.ban.banstr.length
              queue := w.queue ++ [(Dir.add, c.ban.banstr)]
              made := c.ban.onlyIpMask :: w.made
              changed := w.changed + 1 } := by
          simp [processBan, add, del, overlapped, full]
        rw [step]
        simp only [List.filter_cons, del, Bool.not_false, if_true, List.map_cons, accept, full, Bool.false_eq_true,
          if_false]
        obtain ⟨made, kept, queue, changed⟩ := ih temps' marks' _
        refine ⟨made.trans ?_, kept, queue.trans ?_, changed.trans ?_⟩
        · simp
        · simp
        · simp only [List.length_cons]
          omega

theorem processBans_allocated (set : Bool) {cells : List Cell}
    (temps : ∀ c ∈ cells, c.temp = true → c.ban.flags.add = true) (w : Walk)
    (before : ∀ c ∈ w.kept, c.temp = false) :
    ∀ c ∈ (cells.foldl (processBan limits set bounce) w).kept, c.temp = false := by
  induction cells generalizing w with
  | nil => exact before
  | cons c cells ih =>
    rw [List.foldl_cons]
    refine ih (fun c mem => temps c (List.mem_cons_of_mem _ mem)) _ ?_
    have temp := temps c List.mem_cons_self
    unfold processBan
    dsimp only
    split
    · exact before
    · rename_i not_both
      split
      · rename_i del
        split
        · exact before
        · have allocated : c.temp = false := by
            by_contra is_temp
            simp [del, temp (by simpa using is_temp)] at not_both
          dsimp only
          split
          · exact before
          · intro c' mem
            rcases List.mem_append.mp mem with mem | mem
            · exact before c' mem
            · rw [List.mem_singleton.mp mem]
              exact allocated
      · split
        · split
          · exact before
          · split
            · exact before
            · split <;> exact before
        · rename_i not_add
          have allocated : c.temp = false := by
            by_contra is_temp
            exact not_add (temp (by simpa using is_temp))
          dsimp only
          split
          · exact before
          · intro c' mem
            rcases List.mem_append.mp mem with mem | mem
            · exact before c' mem
            · rw [List.mem_singleton.mp mem]
              exact allocated

end

/-! ### A line -/

theorem baseCells_plain (old : List Ban) {items : List BanItem} (some_items : items ≠ []) :
    ∀ c ∈ baseCells old items, c.Plain := by
  intro c mem
  rw [baseCells, if_neg some_items, List.map_map] at mem
  obtain ⟨ban, -, rfl⟩ := List.mem_map.mp mem
  exact ⟨rfl, rfl, rfl⟩

theorem baseCells_allocated (old : List Ban) (items : List BanItem) : ∀ c ∈ baseCells old items, c.temp = false := by
  intro c mem
  obtain ⟨ban, -, rfl⟩ := List.mem_map.mp mem
  rfl

theorem plain_active {base : List Cell} (plain : ∀ c ∈ base, c.Plain) :
    base.filter (fun c => !c.ban.flags.del) = base := by
  apply List.filter_eq_self.mpr
  intro c mem
  simp [(plain c mem).2.2]

theorem foldl_active (items : List BanItem) (cells : List Cell) :
    (items.foldl (linkBan covers) cells).filter (fun c => !c.ban.flags.del) =
      items.foldl (activeStep covers) (cells.filter fun c => !c.ban.flags.del) := by
  induction items generalizing cells with
  | nil => rfl
  | cons it items ih => rw [List.foldl_cons, List.foldl_cons, ih, linkBan_active]

variable (covers) in
theorem linked_shape (old : List Ban) {items : List BanItem} (some_items : items ≠ []) :
    ∃ back, Shape covers (baseCells old items) (applied covers (baseCells old items) items)
        (items.foldl (linkBan covers) (baseCells old items)) back ∧
      (back = [] ↔ ∀ it ∈ applied covers (baseCells old items) items, it.dir = .del) ∧
      (activeAfter covers old items).filter (·.temp) = back.filter fun c => !c.ban.flags.del := by
  have plain := baseCells_plain old some_items
  have unmarked : (baseCells old items).map (Cell.markedBy covers []) = baseCells old items := by
    refine (List.map_congr_left fun c _ => ?_).trans (List.map_id _)
    rfl
  have start : Shape covers (baseCells old items) [] (baseCells old items) [] :=
    ⟨by rw [unmarked, List.append_nil], nofun, nofun⟩
  obtain ⟨back, shape, temps⟩ := start.run items
  rw [plain_active plain, List.nil_append] at shape
  rw [plain_active plain] at temps
  refine ⟨back, shape, temps.trans (and_iff_right rfl), ?_⟩
  have active : activeAfter covers old items =
      (items.foldl (linkBan covers) (baseCells old items)).filter fun c => !c.ban.flags.del := by
    rw [foldl_active, plain_active plain]
    rfl
  have front : ((baseCells old items).map (Cell.markedBy covers (applied covers (baseCells old items) items))).filter
      (·.temp) = [] := by
    apply List.filter_eq_nil_iff.mpr
    intro c mem
    obtain ⟨before, there, rfl⟩ := List.mem_map.mp mem
    rw [Cell.markedBy_temp, (plain before there).1]
    exact Bool.false_ne_true
  have behind : back.filter (·.temp) = back := List.filter_eq_self.mpr fun c mem => (shape.temps c mem).1
  rw [active, List.filter_filter, shape.split, List.filter_append]
  have swap : ∀ l : List Cell, l.filter (fun c => c.temp && !c.ban.flags.del) =
      (l.filter (·.temp)).filter fun c => !c.ban.flags.del := by
    intro l
    rw [List.filter_filter]
    exact List.filter_congr fun c _ => Bool.and_comm _ _
  rw [swap, swap, front, behind]
  rfl

theorem map_ban_filter (old : List Ban) (items : List BanItem) (p : Ban → Bool) :
    ((baseCells old items).filter fun c => p c.ban).map Cell.ban = ((baseCells old items).map Cell.ban).filter p := by
  rw [List.filter_map]
  rfl

theorem processed_set (limits : Limits) (bounce : Bool) (old : List Ban) {items : List BanItem} (some_items : items ≠ []) :
    let w := processBans limits true bounce (items.foldl (linkBan covers) (baseCells old items))
    w.cells.map Cell.ban = ((accepted covers limits old items).map Ban.onlyIpMask).reverse ++ survivors covers old items ∧
      w.queue = (removed covers old items).map (fun ban => (Dir.del, ban.banstr)) ++
        (accepted covers limits old items).map (fun ban => (Dir.add, ban.banstr)) ∧
      w.changed = (removed covers old items).length + (accepted covers limits old items).length := by
  obtain ⟨back, shape, -, news⟩ := linked_shape covers old some_items
  have plain := baseCells_plain old some_items
  intro w
  have stay : ((baseCells old items).filter fun c => !coveredBy covers old items c.ban).map Cell.ban =
      survivors covers old items := map_ban_filter old items fun ban => !coveredBy covers old items ban
  have gone : ((baseCells old items).filter fun c => coveredBy covers old items c.ban).map Cell.ban =
      removed covers old items := map_ban_filter old items fun ban => coveredBy covers old items ban
  have front := processBans_front covers limits bounce plain
    (applied covers (baseCells old items) items) ⟨0, 0, [], [], false, [], 0⟩ rfl
  have walk : w = back.foldl (processBan limits true bounce)
      { count := (survivors covers old items).length
        len := totalLength (survivors covers old items)
        made := []
        kept := (baseCells old items).filter fun c => !coveredBy covers old items c.ban
        cut := false
        queue := (removed covers old items).map fun ban => (Dir.del, ban.banstr)
        changed := (removed covers old items).length } := by
    change List.foldl _ _ _ = _
    rw [shape.split, List.foldl_append, front]
    dsimp only
    rw [← gone, ← stay]
    congr 1
    simp only [Nat.zero_add, List.nil_append, List.length_map, List.map_map]
    rfl
  obtain ⟨made, kept, queue, changed⟩ := processBans_back limits bounce shape.temps shape.marks
    { count := (survivors covers old items).length
      len := totalLength (survivors covers old items)
      made := []
      kept := (baseCells old items).filter fun c => !coveredBy covers old items c.ban
      cut := false
      queue := (removed covers old items).map fun ban => (Dir.del, ban.banstr)
      changed := (removed covers old items).length }
  rw [← news] at made queue changed
  refine ⟨?_, ?_, ?_⟩
  · rw [Walk.cells, walk, made, kept, List.append_nil, List.map_append, List.map_map, stay]
    congr 1
    exact List.map_id _
  · rw [walk, queue]
    rfl
  · rw [walk, changed]
    rfl

/-! ### Bans that do not cover each other -/

theorem activeStep_apart {active : List Cell} (apart : Apart covers (active.map Cell.ban)) (it : BanItem) :
    Apart covers ((activeStep covers active it).map Cell.ban) := by
  have left : Apart covers ((active.filter fun c => !covers it.ban c.ban).map Cell.ban) :=
    apart.sublist (List.filter_sublist.map Cell.ban)
  unfold activeStep
  cases it.dir with
  | add =>
    dsimp only
    split
    · exact apart
    · rename_i free
      rw [List.map_append]
      refine List.pairwise_append.mpr ⟨left, List.pairwise_singleton _ _, ?_⟩
      intro a mem b single
      obtain ⟨c, kept, rfl⟩ := List.mem_map.mp mem
      obtain ⟨there, uncovered⟩ := List.mem_filter.mp kept
      rw [List.mem_singleton.mp single]
      refine ⟨?_, by simpa using uncovered⟩
      by_contra covering
      exact free (List.any_eq_true.mpr ⟨c, there, by simpa using covering⟩)
  | del => exact left

theorem baseCells_apart (blind : Blind covers) {old : List Ban} (apart : Apart covers old) (items : List BanItem) :
    Apart covers ((baseCells old items).map Cell.ban) := by
  unfold baseCells
  rw [List.map_map]
  change Apart covers ((if items = [] then old else old.map Ban.clean).map id)
  rw [List.map_id]
  split
  · exact apart
  · refine List.pairwise_map.mpr (apart.imp fun both => ?_)
    rw [blind _ _ _ _ (Ban.clean_alike _) (Ban.clean_alike _), blind _ _ _ _ (Ban.clean_alike _) (Ban.clean_alike _)]
    exact both

theorem activeAfter_apart (blind : Blind covers) {old : List Ban} (apart : Apart covers old) (items : List BanItem) :
    Apart covers ((activeAfter covers old items).map Cell.ban) := by
  have start := baseCells_apart blind apart items
  unfold activeAfter
  generalize baseCells old items = active at start
  induction items generalizing active with
  | nil => exact start
  | cons it items ih => exact ih (activeStep covers active it) (activeStep_apart start it)

theorem accept_sublist (limits : Limits) (bans : List Ban) (count len : Nat) :
    (accept limits count len bans).Sublist bans := by
  induction bans generalizing count len with
  | nil => exact List.Sublist.refl _
  | cons ban bans ih =>
    unfold accept
    split
    · exact (ih count len).cons ban
    · exact (ih _ _).cons_cons ban

theorem item_onlyIpMask (it : BanItem) : it.ban.onlyIpMask.Alike it.ban := ⟨rfl, rfl, rfl⟩

theorem activeAfter_temp (old : List Ban) (items : List BanItem) :
    ∀ c ∈ activeAfter covers old items, c.temp = true → ∃ it : BanItem, c.ban = it.ban := by
  unfold activeAfter
  have start : ∀ c ∈ baseCells old items, c.temp = true → ∃ it : BanItem, c.ban = it.ban := by
    intro c mem temp
    rw [baseCells_allocated old items c mem] at temp
    cases temp
  generalize baseCells old items = active at start
  induction items generalizing active with
  | nil => exact start
  | cons it items ih =>
    refine ih (activeStep covers active it) fun c mem temp => ?_
    unfold activeStep at mem
    cases dir : it.dir with
    | add =>
      rw [dir] at mem
      dsimp only at mem
      split at mem
      · exact start c mem temp
      · rcases List.mem_append.mp mem with mem | mem
        · exact start c (List.mem_of_mem_filter mem) temp
        · exact ⟨it, by rw [List.mem_singleton.mp mem]⟩
    | del =>
      rw [dir] at mem
      exact start c (List.mem_of_mem_filter mem) temp

/-- Behind a line stand the bans of the channel that are not covered, then the new ones. -/
theorem activeAfter_split (old : List Ban) {items : List BanItem} (some_items : items ≠ []) :
    activeAfter covers old items =
      ((baseCells old items).filter fun c => !coveredBy covers old items c.ban) ++
        (activeAfter covers old items).filter (·.temp) := by
  obtain ⟨back, shape, -, news⟩ := linked_shape covers old some_items
  have plain := baseCells_plain old some_items
  rw [news]
  unfold activeAfter
  rw [← plain_active plain, ← foldl_active, plain_active plain, shape.split, List.filter_append, List.filter_map]
  congr 1
  have kept : (baseCells old items).filter ((fun c => !c.ban.flags.del) ∘
      Cell.markedBy covers (applied covers (baseCells old items) items)) =
        (baseCells old items).filter fun c => !coveredBy covers old items c.ban := by
    apply List.filter_congr
    intro c mem
    unfold Cell.markedBy coveredBy
    simp only [Function.comp_apply]
    split
    · rename_i covered
      rw [covered]
      rfl
    · rename_i free
      rw [(plain c mem).2.2, Bool.eq_false_iff.mpr free]
  rw [kept]
  refine (List.map_congr_left fun c mem => ?_).trans (List.map_id _)
  have free : coveredBy covers old items c.ban = false := by simpa using (List.mem_filter.mp mem).2
  unfold Cell.markedBy
  rw [if_neg]
  · rfl
  · rw [Bool.not_eq_true]
    exact free

theorem processed_apart (blind : Blind covers) (limits : Limits) {old : List Ban} (apart : Apart covers old)
    {items : List BanItem} (some_items : items ≠ []) :
    Apart covers (((accepted covers limits old items).map Ban.onlyIpMask).reverse ++ survivors covers old items) := by
  have both := activeAfter_apart blind apart items
  rw [activeAfter_split old some_items, List.map_append, map_ban_filter old items fun ban => !coveredBy covers old items ban]
    at both
  have room := accept_sublist limits (((activeAfter covers old items).filter (·.temp)).map Cell.ban)
    (survivors covers old items).length (totalLength (survivors covers old items))
  have taken : Apart covers (survivors covers old items ++ accepted covers limits old items) :=
    List.Pairwise.sublist (room.append_left _) both
  have same : ∀ ban ∈ accepted covers limits old items, ban.onlyIpMask.Alike ban := by
    intro ban mem
    obtain ⟨c, there, rfl⟩ := List.mem_map.mp (room.subset mem)
    obtain ⟨active, temp⟩ := List.mem_filter.mp there
    obtain ⟨it, from_item⟩ := activeAfter_temp old items c active temp
    rw [from_item]
    exact item_onlyIpMask it
  obtain ⟨stay, new, across⟩ := List.pairwise_append.mp taken
  refine List.pairwise_append.mpr ⟨List.pairwise_reverse.mpr (List.pairwise_map.mpr ?_), stay, ?_⟩
  · refine new.imp_of_mem fun {a b} here there apart => ?_
    rw [blind _ _ _ _ (same a here) (same b there), blind _ _ _ _ (same b there) (same a here)]
    exact apart.symm
  · intro ban mem kept there
    obtain ⟨before, here, rfl⟩ := List.mem_map.mp (List.mem_reverse.mp mem)
    rw [blind _ _ _ _ (same before here) (Ban.Alike.refl kept), blind _ _ _ _ (Ban.Alike.refl kept) (same before here)]
    exact (across kept there before here).symm

/-! ### When the list comes out right -/

/-- A change that changes nothing: a ban that is covered already or the removal of nothing. -/
def BanItem.Quiet (covers : Ban → Ban → Bool) (old : List Ban) (it : BanItem) : Prop :=
  match it.dir with
  | .add => ∃ ban ∈ old, covers ban it.ban = true
  | .del => ∀ ban ∈ old, covers it.ban ban = false

def Careful (covers : Ban → Ban → Bool) (old : List Ban) (items : List BanItem) : Ending → Prop
  | .processed _ _ => True
  | .ignored => ∀ it ∈ items, it.Quiet covers old
  | .unbuffered => ∀ it ∈ applied covers (baseCells old items) items, it.dir = .del

theorem activeStep_quiet {base : List Cell} {it : BanItem} (del : it.dir = .del)
    (nothing : ∀ c ∈ base, covers it.ban c.ban = false) : activeStep covers base it = base := by
  unfold activeStep
  rw [del]
  apply List.filter_eq_self.mpr
  intro c mem
  rw [nothing c mem]
  rfl

theorem quiet_applied (base : List Cell) (items : List BanItem) :
    (∀ it ∈ items, it.Quiet covers (base.map Cell.ban)) ↔
      ∀ it ∈ applied covers base items, it.dir = .del ∧ ∀ c ∈ base, covers it.ban c.ban = false := by
  induction items with
  | nil => exact ⟨fun _ => nofun, fun _ => nofun⟩
  | cons it items ih =>
    rw [List.forall_mem_cons, ih]
    simp only [applied]
    by_cases blocked : it.dir = .add ∧ base.any (fun c => covers c.ban it.ban)
    · rw [if_pos blocked]
      apply and_iff_right
      obtain ⟨add, covering⟩ := blocked
      obtain ⟨c, mem, covering⟩ := List.any_eq_true.mp covering
      unfold BanItem.Quiet
      rw [add]
      exact ⟨c.ban, List.mem_map_of_mem mem, covering⟩
    · rw [if_neg blocked, List.forall_mem_cons]
      have head : it.Quiet covers (base.map Cell.ban) ↔ it.dir = .del ∧ ∀ c ∈ base, covers it.ban c.ban = false := by
        unfold BanItem.Quiet
        cases dir : it.dir with
        | add =>
          refine ⟨?_, fun both => by cases both.1⟩
          rintro ⟨ban, mem, covering⟩
          obtain ⟨c, there, rfl⟩ := List.mem_map.mp mem
          exact absurd ⟨dir, List.any_eq_true.mpr ⟨c, there, covering⟩⟩ blocked
        | del => exact ⟨fun all => ⟨rfl, List.forall_mem_map.mp all⟩, fun both => List.forall_mem_map.mpr both.2⟩
      rw [head]
      refine and_congr_right fun both => ?_
      rw [activeStep_quiet both.1 both.2]

theorem Shape.back_nil {base : List Cell} {done : List BanItem} {cells back : List Cell}
    (shape : Shape covers base done cells back) (allocated : ∀ c ∈ cells, c.temp = false) : back = [] := by
  apply List.eq_nil_iff_forall_not_mem.mpr
  intro c mem
  have linked : c ∈ cells := by
    rw [shape.split]
    exact List.mem_append_right _ mem
  have temp := (shape.temps c mem).1
  rw [allocated c linked] at temp
  cases temp

theorem baseCells_quiet (blind : Blind covers) (old : List Ban) (items : List BanItem) :
    (∀ it ∈ items, it.Quiet covers ((baseCells old items).map Cell.ban)) ↔ ∀ it ∈ items, it.Quiet covers old := by
  refine forall₂_congr fun it mem => ?_
  have some_items : items ≠ [] := List.ne_nil_of_mem mem
  have bans : (baseCells old items).map Cell.ban = old.map Ban.clean := by
    rw [baseCells, if_neg some_items, List.map_map]
    exact List.map_id _
  have before (ban : Ban) : covers ban.clean it.ban = covers ban it.ban :=
    blind _ _ _ _ (Ban.clean_alike ban) (Ban.Alike.refl _)
  have behind (ban : Ban) : covers it.ban ban.clean = covers it.ban ban :=
    blind _ _ _ _ (Ban.Alike.refl _) (Ban.clean_alike ban)
  unfold BanItem.Quiet
  rw [bans]
  cases it.dir with
  | add => simp only [List.mem_map, exists_exists_and_eq_and, before]
  | del => simp only [List.forall_mem_map, behind]

theorem quiet_bans (limits : Limits) (old : List Ban) (items : List BanItem)
    (quiet : ∀ it ∈ items, it.Quiet covers ((baseCells old items).map Cell.ban)) :
    items.foldl (linkBan covers) (baseCells old items) = baseCells old items ∧
      survivors covers old items = (baseCells old items).map Cell.ban ∧ removed covers old items = [] ∧
      accepted covers limits old items = [] := by
  have nothing := (quiet_applied _ _).mp quiet
  have free : ∀ c ∈ baseCells old items, coveredBy covers old items c.ban = false := by
    intro c mem
    apply List.any_eq_false.mpr
    intro it there
    rw [(nothing it there).2 c mem]
    exact Bool.false_ne_true
  have stay : survivors covers old items = (baseCells old items).map Cell.ban := by
    refine List.filter_eq_self.mpr (List.forall_mem_map.mpr fun c mem => ?_)
    rw [free c mem]
    rfl
  have gone : removed covers old items = [] := by
    refine List.filter_eq_nil_iff.mpr (List.forall_mem_map.mpr fun c mem => ?_)
    rw [free c mem]
    exact Bool.false_ne_true
  by_cases some_items : items = []
  · subst some_items
    refine ⟨rfl, stay, gone, ?_⟩
    have none_temp : (activeAfter covers old []).filter (·.temp) = [] := by
      apply List.filter_eq_nil_iff.mpr
      intro c mem
      rw [baseCells_allocated old [] c mem]
      exact Bool.false_ne_true
    unfold accepted
    rw [none_temp]
    rfl
  · obtain ⟨back, shape, no_back, news⟩ := linked_shape covers old some_items
    have back_nil := no_back.mpr fun it mem => (nothing it mem).1
    refine ⟨?_, stay, gone, ?_⟩
    · rw [shape.split, back_nil, List.append_nil]
      refine (List.map_congr_left fun c mem => ?_).trans (List.map_id _)
      unfold Cell.markedBy
      rw [if_neg]
      · rfl
      · rw [Bool.not_eq_true]
        exact free c mem
    · unfold accepted
      rw [news, back_nil]
      rfl

theorem processed_right (blind : Blind covers) (limits : Limits) (old : List Ban) (items : List BanItem)
    (set bounce : Bool) : BansRight covers limits old items (.processed set bounce) := by
  by_cases some_items : items = []
  · subst some_items
    have quiet : ∀ it ∈ ([] : List BanItem), it.Quiet covers ((baseCells old []).map Cell.ban) := nofun
    obtain ⟨-, stay, gone, none_new⟩ := quiet_bans limits old [] quiet
    refine ⟨baseCells_allocated old [], ?_, ?_, ?_⟩
    · intro _
      rw [stay, none_new]
      rfl
    · intro _
      rw [gone, none_new]
      rfl
    · intro _ apart
      exact activeAfter_apart blind apart []
  · have value : parseBans covers limits old items (.processed set bounce) =
        let w := processBans limits set bounce (items.foldl (linkBan covers) (baseCells old items))
        (w.cells, w.queue) := if_neg some_items
    obtain ⟨back, shape, -, -⟩ := linked_shape covers old some_items
    refine ⟨?_, ?_, ?_, ?_⟩
    · rw [value]
      intro c mem
      rcases List.mem_append.mp mem with mem | mem
      · obtain ⟨ban, -, rfl⟩ := List.mem_map.mp mem
        rfl
      · refine processBans_allocated limits bounce set ?_ ⟨0, 0, [], [], false, [], 0⟩ nofun c mem
        rw [shape.split]
        intro c mem temp
        rcases List.mem_append.mp mem with mem | mem
        · obtain ⟨before, there, rfl⟩ := List.mem_map.mp mem
          rw [Cell.markedBy_temp, baseCells_allocated old items before there] at temp
          cases temp
        · exact (shape.temps c mem).2
    · rintro rfl
      rw [value]
      exact (processed_set limits bounce old some_items).1
    · rintro rfl
      rw [value]
      exact (processed_set limits bounce old some_items).2.1
    · rintro rfl apart
      rw [value]
      dsimp only
      rw [(processed_set limits bounce old some_items).1]
      exact processed_apart blind limits apart some_items

theorem ignored_right (blind : Blind covers) (limits : Limits) (old : List Ban) (items : List BanItem) :
    BansRight covers limits old items .ignored ↔ ∀ it ∈ items, it.Quiet covers old := by
  rw [← baseCells_quiet blind old items]
  constructor
  · rintro ⟨allocated, -, queue, -⟩
    by_cases some_items : items = []
    · subst some_items
      exact nofun
    · obtain ⟨back, shape, no_back, -⟩ := linked_shape covers old some_items
      have back_nil : back = [] := shape.back_nil allocated
      have gone : removed covers old items = [] :=
        List.map_eq_nil_iff.mp (List.append_eq_nil_iff.mp (queue rfl).symm).1
      have uncovered := List.forall_mem_map.mp (List.filter_eq_nil_iff.mp gone)
      refine (quiet_applied _ _).mpr fun it mem => ⟨no_back.mp back_nil it mem, fun c there => ?_⟩
      by_contra covering
      exact uncovered c there (List.any_eq_true.mpr ⟨it, mem, by simpa using covering⟩)
  · intro quiet
    obtain ⟨linked, stay, gone, none_new⟩ := quiet_bans limits old items quiet
    have value : parseBans covers limits old items .ignored = (baseCells old items, []) := congrArg (·, []) linked
    refine ⟨?_, ?_, ?_, ?_⟩
    · rw [value]
      exact baseCells_allocated old items
    · intro _
      rw [value, stay, none_new]
      rfl
    · intro _
      rw [value, gone, none_new]
      rfl
    · intro _ apart
      rw [value]
      exact baseCells_apart blind apart items

theorem unbuffered_right (limits : Limits) (old : List Ban) (items : List BanItem) :
    BansRight covers limits old items .unbuffered ↔
      ∀ it ∈ applied covers (baseCells old items) items, it.dir = .del := by
  by_cases some_items : items = []
  · subst some_items
    exact ⟨fun _ => nofun, fun _ => ⟨baseCells_allocated old [], nofun, nofun, nofun⟩⟩
  · obtain ⟨back, shape, no_back, -⟩ := linked_shape covers old some_items
    rw [← no_back]
    constructor
    · rintro ⟨allocated, -, -, -⟩
      exact shape.back_nil allocated
    · intro back_nil
      refine ⟨?_, nofun, nofun, nofun⟩
      change ∀ c ∈ items.foldl (linkBan covers) (baseCells old items), c.temp = false
      rw [shape.split, back_nil, List.append_nil]
      refine List.forall_mem_map.mpr fun c mem => ?_
      rw [Cell.markedBy_temp]
      exact baseCells_allocated old items c mem

end

/-- The ban list comes out as it should exactly when the bans of the line are processed or there is
nothing to process. -/
theorem bans_right (mmatch : List Char → List Char → Bool) (limits : Limits) (old : List Ban) (items : List BanItem)
    (ending : Ending) :
    BansRight (bmatch mmatch) limits old items ending ↔ Careful (bmatch mmatch) old items ending := by
  have blind := bmatch_blind mmatch
  cases ending with
  | processed set bounce => exact iff_of_true (processed_right blind limits old items set bounce) trivial
  | ignored => exact ignored_right blind limits old items
  | unbuffered => exact unbuffered_right limits old items

/-- A ban from a server that has not read our burst, with a later timestamp: the ban of the parser
stays linked. -/
theorem ignored_ban_stays :
    ¬ BansRight (bmatch fun old new => old = new) ⟨false, 0, 0⟩ [] [⟨.add, "*!*@b".toList, "*".toList, 0⟩] .ignored := by
  rintro ⟨allocated, -, -, -⟩
  exact Bool.noConfusion (allocated ⟨BanItem.ban ⟨.add, "*!*@b".toList, "*".toList, 0⟩, true⟩ (by decide))

end Ircd.Channels
