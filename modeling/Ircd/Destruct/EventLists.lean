import Ircd.Destruct.Events

/-! The lists of events and the channels they refer to: what the functions of `destruct_event.c` keep. -/

set_option autoImplicit false

namespace Ircd.Destruct
open Ircd.Channels Ircd.Library

section
variable {ε χ Client : Type}

def Server.lists (s : Server ε χ Client) : TwoEnded Queue ε :=
  { next := s.prevEvent
    prev := s.nextEvent
    head := s.top
    last := s.bottom }

def Server.eventOf (s : Server ε χ Client) (c : χ) : Option ε := (s.channel c).bind ChannelCell.destructEvent

/-- The events in `l` are on the lists that `key` says, and their channels point back to them. -/
structure Inv [DecidableEq ε] (s : Server ε χ Client) (key : ε → Option Queue) (l : List ε) : Prop where
  holds : s.lists.Holds key l
  keyed : ∀ e ∈ l, ∃ q, key e = some q
  distinct : l.Nodup
  allocated : ∀ e, s.allocated e = true ↔ e ∈ l
  refers : ∀ e ∈ l, s.eventOf (s.chptr e) = some e
  points : ∀ c e, s.eventOf c = some e → e ∈ l ∧ s.chptr e = c
  empty : ∀ c cell, s.channel c = some cell → cell.destructEvent ≠ none → cell.chan.members = []

/-- The lists are ordered, and no event is later than one that is scheduled now. -/
structure Timely (s : Server ε χ Client) (key : ε → Option Queue) (l : List ε) : Prop where
  order : ∀ q, (l.filter fun e => key e = some q).Pairwise fun e e' => s.expires e' ≤ s.expires e
  bound : ∀ e ∈ l, ∀ q, key e = some q → s.expires e ≤ s.now + q.delay

variable [DecidableEq ε] [DecidableEq χ] {s : Server ε χ Client} {key : ε → Option Queue} {l : List ε}

omit [DecidableEq χ] in
theorem storeIf_eq (field : ε → Option ε) (event value : Option ε) :
    storeIf field event value = setPrev field event value := by
  cases event <;> rfl

omit [DecidableEq ε] in
theorem eventOf_update {s' : Server ε χ Client} {c : χ} {cell : Option (ChannelCell ε Client)}
    (channel : s'.channel = Function.update s.channel c cell) :
    s'.eventOf = Function.update s.eventOf c (cell.bind ChannelCell.destructEvent) := by
  funext d
  unfold Server.eventOf
  rw [channel]
  by_cases same : d = c
  · subst same
    rw [Function.update_self, Function.update_self]
  · rw [Function.update_of_ne same, Function.update_of_ne same]

omit [DecidableEq ε] in
@[simp] theorem setChannel_here (c : χ) (cell : Option (ChannelCell ε Client)) :
    (s.setChannel c cell).channel c = cell := Function.update_self ..

theorem Inv.setChannel (inv : Inv s key l) {c : χ} {cell : Option (ChannelCell ε Client)}
    (same : cell.bind ChannelCell.destructEvent = s.eventOf c)
    (empty : ∀ new, cell = some new → new.destructEvent ≠ none → new.chan.members = []) :
    Inv (s.setChannel c cell) key l := by
  have stored : (s.setChannel c cell).channel = Function.update s.channel c cell := rfl
  have events : (s.setChannel c cell).eventOf = s.eventOf := by
    rw [eventOf_update stored, same, Function.update_eq_self]
  refine ⟨inv.holds, inv.keyed, inv.distinct, inv.allocated, ?_, ?_, ?_⟩
  · rw [events]
    exact inv.refers
  · rw [events]
    exact inv.points
  · intro d old there
    change Function.update s.channel c cell d = some old at there
    by_cases here : d = c
    · subst here
      rw [Function.update_self] at there
      exact empty old there
    · rw [Function.update_of_ne here] at there
      exact inv.empty d old there

omit [DecidableEq ε] in
theorem Timely.setChannel (timely : Timely s key l) (c : χ) (cell : Option (ChannelCell ε Client)) :
    Timely (s.setChannel c cell) key l := ⟨timely.order, timely.bound⟩

section
variable {q : Queue} {delay : Int} {new : ε} {c : χ} {cell : ChannelCell ε Client}

structure Scheduled (s : Server ε χ Client) (q : Queue) (delay : Int) (new : ε) (c : χ)
    (cell : ChannelCell ε Client) (s' : Server ε χ Client) : Prop where
  lists : s'.lists = s.lists.push q new
  chptr : s'.chptr = Function.update s.chptr new c
  expires : s'.expires = Function.update s.expires new (s.now + delay)
  allocated : s'.allocated = Function.update s.allocated new true
  channel : s'.channel = Function.update s.channel c (some { cell with destructEvent := some new })
  now : s'.now = s.now
  opLevels : s'.opLevels = s.opLevels

theorem schedule_spec (found : s.channel c = some cell) (none_yet : cell.destructEvent = none)
    (fresh : s.top q ≠ some new) : Scheduled s q delay new c cell (s.schedule q delay new c) := by
  unfold Server.schedule
  simp only [found, none_yet, Option.isSome_none, Bool.false_eq_true, if_false]
  refine ⟨?_, rfl, rfl, rfl, rfl, rfl, rfl⟩
  simp only [Server.lists, Server.setChannel, TwoEnded.push, TwoWay.push, Function.update_self, ← storeIf_eq]
  cases top : s.top q with
  | none =>
    simp only [storeIf]
    congr
  | some t =>
    have other : t ≠ new := fun same => fresh (by rw [top, same])
    simp only [storeIf, Function.update_comm other]
    congr

theorem Scheduled.inv {s' : Server ε χ Client} (spec : Scheduled s q delay new c cell s') (inv : Inv s key l)
    (fresh : new ∉ l) (none_yet : s.eventOf c = none) (empty : cell.chan.members = []) :
    Inv s' (Function.update key new (some q)) (new :: l) := by
  have off {e : ε} (mem : e ∈ l) : e ≠ new := fun same => fresh (same ▸ mem)
  have events := eventOf_update spec.channel
  refine ⟨?_, ?_, List.nodup_cons.mpr ⟨fresh, inv.distinct⟩, ?_, ?_, ?_, ?_⟩
  · rw [spec.lists]
    have kept : s.lists.Holds (Function.update key new (some q)) l :=
      inv.holds.congr (fun _ _ => rfl) (fun _ _ => rfl) rfl rfl fun e mem => Function.update_of_ne (off mem) _ _
    exact kept.push inv.distinct fresh (Function.update_self ..)
  · intro e mem
    rcases List.mem_cons.mp mem with rfl | mem
    · exact ⟨q, Function.update_self ..⟩
    · rw [Function.update_of_ne (off mem)]
      exact inv.keyed e mem
  · intro e
    rw [spec.allocated, List.mem_cons, ← inv.allocated e]
    by_cases same : e = new
    · simp [same]
    · simp [same]
  · intro e mem
    rw [events, spec.chptr]
    rcases List.mem_cons.mp mem with rfl | mem
    · rw [Function.update_self, Function.update_self]
      rfl
    · have there := inv.refers e mem
      rw [Function.update_of_ne (off mem), Function.update_of_ne, there]
      intro same
      rw [same, none_yet] at there
      cases there
  · intro d e there
    rw [events] at there
    by_cases here : d = c
    · subst here
      rw [Function.update_self] at there
      obtain rfl := Option.some.inj there
      exact ⟨List.mem_cons_self, by rw [spec.chptr, Function.update_self]⟩
    · rw [Function.update_of_ne here] at there
      obtain ⟨mem, owner⟩ := inv.points d e there
      exact ⟨List.mem_cons_of_mem _ mem, by rw [spec.chptr, Function.update_of_ne (off mem), owner]⟩
  · intro d old there
    rw [spec.channel] at there
    by_cases here : d = c
    · subst here
      rw [Function.update_self] at there
      obtain rfl := Option.some.inj there
      exact fun _ => empty
    · rw [Function.update_of_ne here] at there
      exact inv.empty d old there

theorem Scheduled.timely {s' : Server ε χ Client} (spec : Scheduled s q q.delay new c cell s')
    (timely : Timely s key l) (fresh : new ∉ l) : Timely s' (Function.update key new (some q)) (new :: l) := by
  have off {e : ε} (mem : e ∈ l) : e ≠ new := fun same => fresh (same ▸ mem)
  have kept {e : ε} (mem : e ∈ l) : s'.expires e = s.expires e := by
    rw [spec.expires, Function.update_of_ne (off mem)]
  have keys (q' : Queue) : (l.filter fun e => Function.update key new (some q) e = some q') =
      l.filter fun e => key e = some q' :=
    List.filter_congr fun e mem => by rw [Function.update_of_ne (off mem)]
  have old (q' : Queue) :
      (l.filter fun e => key e = some q').Pairwise fun e e' => s'.expires e' ≤ s'.expires e := by
    refine (timely.order q').imp_of_mem ?_
    intro e e' mem mem' earlier
    rwa [kept (List.mem_of_mem_filter mem), kept (List.mem_of_mem_filter mem')]
  constructor
  · intro q'
    by_cases same : q' = q
    · subst same
      rw [List.filter_cons_of_pos (by simp), keys, List.pairwise_cons]
      refine ⟨?_, old q'⟩
      intro e mem
      obtain ⟨mem, here⟩ := List.mem_filter.mp mem
      rw [kept mem, spec.expires, Function.update_self]
      exact timely.bound e mem q' (by simpa using here)
    · rw [List.filter_cons_of_neg (by simpa using Ne.symm same), keys]
      exact old q'
  · intro e mem q' there
    rw [spec.now]
    rcases List.mem_cons.mp mem with rfl | mem
    · rw [Function.update_self] at there
      obtain rfl := Option.some.inj there
      rw [spec.expires, Function.update_self]
    · rw [Function.update_of_ne (off mem)] at there
      rw [kept mem]
      exact timely.bound e mem q' there

end

section
variable {c : χ} {cell : ChannelCell ε Client} {event : ε}

structure Removed (s : Server ε χ Client) (c : χ) (cell : ChannelCell ε Client) (event : ε)
    (s' : Server ε χ Client) : Prop where
  lists : s'.lists = s.lists.unlink event
  chptr : s'.chptr = s.chptr
  expires : s'.expires = s.expires
  allocated : s'.allocated = Function.update s.allocated event false
  channel : s'.channel = Function.update s.channel c (some { cell with destructEvent := none })
  now : s'.now = s.now
  opLevels : s'.opLevels = s.opLevels

theorem remove_spec (found : s.channel c = some cell) (pending : cell.destructEvent = some event) :
    Removed s c cell event (s.removeDestructEvent c) := by
  unfold Server.removeDestructEvent
  simp only [found, pending]
  refine ⟨?_, rfl, rfl, rfl, rfl, rfl, rfl⟩
  simp only [Server.lists, Server.setChannel, TwoEnded.unlink, ← storeIf_eq]

theorem Removed.inv {s' : Server ε χ Client} (spec : Removed s c cell event s') (inv : Inv s key l)
    (pending : s.eventOf c = some event) : Inv s' key (l.erase event) := by
  obtain ⟨there, owner⟩ := inv.points c event pending
  obtain ⟨q, key_event⟩ := inv.keyed event there
  have events := eventOf_update spec.channel
  have left {e : ε} : e ∈ l.erase event ↔ e ≠ event ∧ e ∈ l := inv.distinct.mem_erase_iff
  refine ⟨?_, ?_, inv.distinct.erase event, ?_, ?_, ?_, ?_⟩
  · rw [spec.lists]
    exact inv.holds.unlink inv.distinct there key_event
  · intro e mem
    exact inv.keyed e (left.mp mem).2
  · intro e
    rw [spec.allocated, left, ← inv.allocated e]
    by_cases same : e = event
    · simp [same]
    · simp [same]
  · intro e mem
    obtain ⟨other, mem⟩ := left.mp mem
    have points := inv.refers e mem
    rw [events, spec.chptr, Function.update_of_ne, points]
    intro same
    rw [same, pending] at points
    exact other (Option.some.inj points).symm
  · intro d e points
    rw [events] at points
    by_cases here : d = c
    · subst here
      rw [Function.update_self] at points
      cases points
    · rw [Function.update_of_ne here] at points
      obtain ⟨mem, back⟩ := inv.points d e points
      refine ⟨left.mpr ⟨?_, mem⟩, by rw [spec.chptr, back]⟩
      rintro rfl
      exact here (back.symm.trans owner)
  · intro d old there
    rw [spec.channel] at there
    by_cases here : d = c
    · subst here
      rw [Function.update_self] at there
      obtain rfl := Option.some.inj there
      exact fun pending => absurd rfl pending
    · rw [Function.update_of_ne here] at there
      exact inv.empty d old there

theorem Removed.timely {s' : Server ε χ Client} (spec : Removed s c cell event s') (timely : Timely s key l)
    (distinct : l.Nodup) : Timely s' key (l.erase event) := by
  constructor
  · intro q
    rw [spec.expires, filter_erase distinct]
    exact (timely.order q).sublist List.erase_sublist
  · intro e mem
    rw [spec.expires, spec.now]
    exact timely.bound e (List.mem_of_mem_erase mem)

end

end

end Ircd.Destruct
