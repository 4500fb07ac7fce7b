import Ircd.Whowas.Records

/-! The nick history keeps the newest nicks, as long as the only record it has is never
taken again.

`whowas_clean` moves the tail of the list when the record is the tail, but leaves the head
alone. A list of one record is then left with a head that is also the record to be put in
front of it.
-/

set_option autoImplicit false

namespace Ircd.Whowas
open Ircd.Library Ircd.Text

def Prevs {ι : Type} (wprev : ι → Option ι) : Option ι → List ι → Prop
  | _, [] => True
  | p, ww :: l => wprev ww = p ∧ Prevs wprev (some ww) l

section
variable {ι γ : Type} [DecidableEq ι] [DecidableEq γ]

/-- The three kinds of list, for the records `l`, the newest first. -/
structure Lists (s : State ι γ) (l : List ι) : Prop where
  distinct : l.Nodup
  chain : Chain s.wnext s.wwList l
  prev : Prevs s.wprev none l
  tail : s.wwTail = l.getLast?
  hashv : ∀ ww ∈ l, s.hashv ww = hashWhowasName (s.name ww)
  hash : s.hash.Holds (fun ww => some (hashWhowasName (s.name ww))) l
  client : s.client.Holds s.online l

def State.entries (s : State ι γ) (l : List ι) : History γ := l.map fun ww => (s.name ww, s.online ww)

variable {l : List ι}

omit [DecidableEq ι] in
theorem Prevs.congr {wprev wprev' : ι → Option ι} {p : Option ι} (prev : Prevs wprev p l)
    (same : ∀ ww ∈ l, wprev' ww = wprev ww) : Prevs wprev' p l := by
  induction l generalizing p with
  | nil => trivial
  | cons a l ih =>
    refine ⟨(same a List.mem_cons_self).trans prev.1, ?_⟩
    exact ih prev.2 fun b mem => same b (List.mem_cons_of_mem a mem)

omit [DecidableEq ι] in
theorem Prevs.of_append {wprev : ι → Option ι} {p : Option ι} {r : List ι} (prev : Prevs wprev p (l ++ r)) :
    Prevs wprev p l := by
  induction l generalizing p with
  | nil => trivial
  | cons a l ih => exact ⟨prev.1, ih prev.2⟩

omit [DecidableEq ι] in
theorem Prevs.at_last {wprev : ι → Option ι} {p : Option ι} {a ww : ι} (prev : Prevs wprev p (l ++ [a, ww])) :
    wprev ww = some a := by
  induction l generalizing p with
  | nil => exact prev.2.1
  | cons b l ih => exact ih prev.2

variable {s : State ι γ}

omit [DecidableEq γ] in
theorem unlinkList_oldest {a ww : ι} (distinct : (l ++ [a, ww]).Nodup)
    (chain : Chain s.wnext s.wwList (l ++ [a, ww])) (prev : Prevs s.wprev none (l ++ [a, ww]))
    (tail : s.wwTail = some ww) :
    unlinkList s ww = { s with wnext := Function.update s.wnext a none, wwTail := some a } ∧
      Chain (Function.update s.wnext a none) s.wwList (l ++ [a]) := by
  have split : l ++ [a, ww] = l ++ [a] ++ [ww] := by simp
  have last : s.wnext ww = none := Chain.last_next (split ▸ chain)
  have before : s.wprev ww = some a := prev.at_last
  refine ⟨?_, ?_⟩
  · unfold unlinkList
    simp only [last, before, tail, if_true]
  · have cut := chain.unlink distinct
    rwa [last] at cut

theorem clean_lists {ww : ι} (lists : Lists s (l ++ [ww])) (more : l ≠ []) :
    ∃ s', whowasClean s ww = some s' ∧ Lists s' l ∧ s'.allocated = s.allocated ∧ s'.name = s.name ∧
      s'.online = s.online ∧ s'.hashv = s.hashv ∧ s'.wwAlloc = s.wwAlloc ∧ s'.historyLength = s.historyLength := by
  have there : ww ∈ l ++ [ww] := by simp
  have fresh : ww ∉ l := by
    intro mem
    exact (List.nodup_append.mp lists.distinct).2.2 ww mem ww (by simp) rfl
  have rest : (l ++ [ww]).erase ww = l := by
    rw [List.erase_append_right _ fresh, List.erase_cons_head, List.append_nil]
  obtain ⟨client, unlinked, holds⟩ : ∃ client, unlinkClient s ww = some { s with client := client } ∧
      client.Holds s.online l := by
    unfold unlinkClient
    cases online : s.online ww with
    | none =>
      refine ⟨s.client, by simp, ?_⟩
      rw [← rest]
      exact lists.client.erase_of_none lists.distinct online
    | some cptr =>
      obtain ⟨client, done, holds⟩ := lists.client.unlink lists.distinct there online
      exact ⟨client, by simp [done], rest ▸ holds⟩
  obtain ⟨hash, unhashed, hash_holds⟩ := lists.hash.unlink lists.distinct there rfl
  rw [rest] at hash_holds
  obtain ⟨l₀, a, rfl⟩ := (List.eq_nil_or_concat' l).resolve_left more
  have joined : l₀ ++ [a] ++ [ww] = l₀ ++ [a, ww] := by simp
  have tail : s.wwTail = some ww := by simp [lists.tail]
  let s₂ : State ι γ := { s with client := client, hash := hash }
  obtain ⟨shorter, chain⟩ := unlinkList_oldest (s := s₂) (joined ▸ lists.distinct) (joined ▸ lists.chain)
    (joined ▸ lists.prev) tail
  refine ⟨{ s₂ with wnext := Function.update s.wnext a none, wwTail := some a }, ?_,
    ⟨?_, chain, lists.prev.of_append, by simp, ?_, hash_holds, holds⟩, rfl, rfl, rfl, rfl, rfl, rfl⟩
  · rw [whowasClean, unlinked, Option.bind_some, unlinkHash, unhashed, Option.map_some, Option.map_some]
    exact congrArg some shorter
  · exact (List.nodup_append.mp lists.distinct).1
  · exact fun b mem => lists.hashv b (List.mem_append_left _ mem)

theorem blank_lists {ww : ι} (lists : Lists s l) (fresh : ww ∉ l) :
    Lists (s.blank ww) l := by
  have off : ∀ b ∈ l, b ≠ ww := fun b mem same => fresh (same ▸ mem)
  refine ⟨lists.distinct, ?_, ?_, lists.tail, lists.hashv, ?_, ?_⟩
  · exact lists.chain.congr fun b mem => Function.update_of_ne (off b mem) _ _
  · exact lists.prev.congr fun b mem => Function.update_of_ne (off b mem) _ _
  · exact lists.hash.congr (fun b mem => Function.update_of_ne (off b mem) _ _)
      (fun b mem => Function.update_of_ne (off b mem) _ _) rfl fun _ _ => rfl
  · exact lists.client.congr (fun b mem => Function.update_of_ne (off b mem) _ _)
      (fun b mem => Function.update_of_ne (off b mem) _ _) rfl
      fun b mem => Function.update_of_ne (off b mem) _ _

omit [DecidableEq γ] in
theorem linkList_front {ww : ι} (distinct : l.Nodup) (fresh : ww ∉ l) (chain : Chain s.wnext s.wwList l)
    (prev : Prevs s.wprev none l) (tail : s.wwTail = l.getLast?) (blank : s.wprev ww = none) :
    ∃ wprev, linkList s ww = { s with
        wnext := Function.update s.wnext ww s.wwList, wprev := wprev, wwList := some ww
        wwTail := (ww :: l).getLast? } ∧
      Chain (Function.update s.wnext ww s.wwList) (some ww) (ww :: l) ∧ Prevs wprev none (ww :: l) := by
  have front : Chain (Function.update s.wnext ww s.wwList) (some ww) (ww :: l) := by
    refine ⟨rfl, ?_⟩
    rw [Function.update_self]
    apply chain.congr
    intro b mem
    have other : b ≠ ww := fun same => fresh (same ▸ mem)
    exact Function.update_of_ne other _ _
  cases l with
  | nil =>
    have none_listed : s.wwList = none := chain
    have no_tail : s.wwTail = none := tail
    refine ⟨s.wprev, ?_, front, blank, trivial⟩
    simp [linkList, none_listed, no_tail]
  | cons a l =>
    have head : s.wwList = some a := chain.1
    have some_tail : (a :: l).getLast? ≠ none := by simp
    have other : ww ≠ a := fun same => fresh (same ▸ List.mem_cons_self)
    refine ⟨Function.update s.wprev a (some ww), ?_, front, ?_, ?_, ?_⟩
    · simp only [linkList, head, tail, if_neg some_tail, List.getLast?_cons_cons]
    · rw [Function.update_of_ne other, blank]
    · rw [Function.update_self]
    · apply prev.2.congr
      intro b mem
      have later : b ≠ a := fun same => (List.nodup_cons.mp distinct).1 (same ▸ mem)
      exact Function.update_of_ne later _ _

def State.filled (s : State ι γ) (ww : ι) (cptr : γ) (name : CString) (stillOn : Bool) : State ι γ :=
  { s with
    hashv := Function.update s.hashv ww (hashWhowasName name)
    name := Function.update s.name ww name
    online := Function.update s.online ww (if stillOn then some cptr else none)
    client := if stillOn then s.client.push cptr ww else s.client }

theorem enter_eq (s : State ι γ) (ww : ι) (cptr : γ) (name : CString) (stillOn : Bool) :
    s.enter ww cptr name stillOn = linkHash (linkList (s.filled ww cptr name stillOn) ww) ww := by
  cases stillOn <;> rfl

theorem filled_client {ww : ι} (lists : Lists s l) (fresh : ww ∉ l) (cptr : γ) (name : CString) (stillOn : Bool) :
    (s.filled ww cptr name stillOn).client.Holds (s.filled ww cptr name stillOn).online (ww :: l) := by
  have kept : s.client.Holds (s.filled ww cptr name stillOn).online l := by
    refine lists.client.congr (fun _ _ => rfl) (fun _ _ => rfl) rfl fun b mem => ?_
    have other : b ≠ ww := fun same => fresh (same ▸ mem)
    exact Function.update_of_ne other _ _
  cases stillOn with
  | false => exact kept.cons_of_none (Function.update_self ..)
  | true => exact kept.push lists.distinct fresh (Function.update_self ..)

theorem enter_lists {ww : ι} (lists : Lists s l) (fresh : ww ∉ l) (blank : s.wprev ww = none) (cptr : γ)
    (name : CString) (stillOn : Bool) :
    Lists (s.enter ww cptr name stillOn) (ww :: l) ∧
      (s.enter ww cptr name stillOn).entries (ww :: l) =
        (name, if stillOn then some cptr else none) :: s.entries l ∧
      (s.enter ww cptr name stillOn).allocated = s.allocated ∧
      (s.enter ww cptr name stillOn).wwAlloc = s.wwAlloc ∧
      (s.enter ww cptr name stillOn).historyLength = s.historyLength := by
  have off : ∀ b ∈ l, b ≠ ww := fun b mem same => fresh (same ▸ mem)
  obtain ⟨wprev, linked, chain, prev⟩ := linkList_front (s := s.filled ww cptr name stillOn) lists.distinct fresh
    lists.chain lists.prev lists.tail blank
  have client := filled_client lists fresh cptr name stillOn
  have hash : (s.hash.push (hashWhowasName name) ww).Holds
      (fun b => some (hashWhowasName (Function.update s.name ww name b))) (ww :: l) := by
    refine Links.Holds.push ?_ lists.distinct fresh (by rw [Function.update_self])
    refine lists.hash.congr (fun _ _ => rfl) (fun _ _ => rfl) rfl fun b mem => ?_
    rw [Function.update_of_ne (off b mem)]
  have hashed : (s.filled ww cptr name stillOn).hashv ww = hashWhowasName name := Function.update_self ..
  rw [enter_eq, linked]
  simp only [linkHash, hashed]
  refine ⟨⟨List.nodup_cons.mpr ⟨fresh, lists.distinct⟩, chain, prev, rfl, ?_, hash, client⟩, ?_, rfl, rfl, rfl⟩
  · intro b mem
    simp only [State.filled]
    by_cases same : b = ww
    · rw [same, Function.update_self, Function.update_self]
    · rw [Function.update_of_ne same, Function.update_of_ne same]
      exact lists.hashv b (by simpa [same] using mem)
  · simp only [State.entries, State.filled, List.map_cons, Function.update_self]
    congr 1
    apply List.map_congr_left
    intro b mem
    rw [Function.update_of_ne (off b mem), Function.update_of_ne (off b mem)]

omit [DecidableEq γ] in
theorem offLoop_chain {left : Nat} {p : Option ι} (chain : Chain s.client.next p l) (enough : l.length ≤ left) :
    offLoop left p s = some { s with online := fun b => if b ∈ l then none else s.online b } := by
  induction l generalizing left p s with
  | nil =>
    rw [chain_nil.mp chain]
    simp [offLoop]
  | cons a l ih =>
    obtain ⟨rfl, rest⟩ := chain
    cases left with
    | zero => simp at enough
    | succ left =>
      rw [offLoop]
      refine (ih (s := { s with online := Function.update s.online a none }) rest (by simpa using enough)).trans ?_
      congr 2
      funext b
      by_cases here : b = a
      · simp [here]
      · simp [here]

theorem clientGone_lists (lists : Lists s l) (alloc : s.wwAlloc = l.length) (cptr : γ) :
    ∃ s', clientGone s cptr = some s' ∧ Lists s' l ∧
      s'.entries l = (s.entries l).map (fun entry => if entry.2 = some cptr then (entry.1, none) else entry) ∧
      s'.allocated = s.allocated ∧ s'.wwAlloc = s.wwAlloc ∧ s'.historyLength = s.historyLength := by
  have loop := offLoop_chain (lists.client.chain cptr)
    (alloc ▸ List.length_filter_le _ l)
  have online : ∀ b ∈ l, (if b ∈ l.filter (fun a => s.online a = some cptr) then none else s.online b) =
      if s.online b = some cptr then none else s.online b := by
    intro b mem
    simp [mem]
  rw [clientGone, offHistory, loop, Option.map_some]
  refine ⟨_, rfl, ?_, ?_, rfl, rfl, rfl⟩
  · refine ⟨lists.distinct, lists.chain, lists.prev, lists.tail, lists.hashv, lists.hash, ?_⟩
    have filter_eq : ∀ k, (l.filter fun a => (if a ∈ l.filter (fun a => s.online a = some cptr) then none
        else s.online a) = some k) = if k = cptr then [] else l.filter fun a => s.online a = some k := by
      intro k
      by_cases same : k = cptr
      · rw [if_pos same, List.filter_eq_nil_iff]
        intro a mem
        rw [online a mem, same]
        split <;> simp_all
      · rw [if_neg same]
        apply List.filter_congr
        intro a mem
        rw [online a mem]
        split
        · rename_i left
          simp [left, Ne.symm same]
        · rfl
    refine ⟨fun k => ?_, fun k => ?_⟩
    · rw [filter_eq]
      by_cases same : k = cptr
      · simp [same]
      · simp only [if_neg same, Function.update_of_ne same]
        exact lists.client.chain k
    · rw [filter_eq]
      by_cases same : k = cptr
      · rw [if_pos same]
        trivial
      · rw [if_neg same]
        exact lists.client.back k
  · simp only [State.entries, List.map_map]
    apply List.map_congr_left
    intro b mem
    rw [online b mem]
    simp only [Function.comp_apply]
    split <;> rfl

structure Kept (s : State ι γ) (l : List ι) (history : History γ) : Prop where
  lists : Lists s l
  inUse : ∀ ww, s.allocated ww = true ↔ ww ∈ l
  alloc : s.wwAlloc = l.length
  length : 1 ≤ s.historyLength
  within : l.length ≤ s.historyLength
  entries : s.entries l = history

omit [DecidableEq ι] [DecidableEq γ] in
theorem entries_length (s : State ι γ) (l : List ι) : (s.entries l).length = l.length := List.length_map ..

variable {history : History γ}

theorem add_recycles {ww : ι} (kept : Kept s (l ++ [ww]) history) (more : l ≠ [])
    (full : s.wwAlloc ≥ s.historyLength) (cptr : γ) (name : CString) (stillOn : Bool) (new : ι) :
    ∃ s', addHistory s cptr name stillOn new = some s' ∧
      Kept s' (ww :: l) (history.step s.historyLength (.add cptr name stillOn new)) := by
  have tail : s.wwTail = some ww := by simp [kept.lists.tail]
  have fresh : ww ∉ l := by
    intro mem
    exact (List.nodup_append.mp kept.lists.distinct).2.2 ww mem ww (by simp) rfl
  obtain ⟨s₁, cleaned, lists, allocated, names, onlines, -, alloc, length⟩ := clean_lists kept.lists more
  have blank : (s₁.blank ww).wprev ww = none := Function.update_self ..
  obtain ⟨lists', entries', allocated', alloc', length'⟩ :=
    enter_lists (blank_lists lists fresh) fresh blank cptr name stillOn
  have same_entries : (s₁.blank ww).entries l = s.entries l := by
    apply List.map_congr_left
    intro b mem
    have other : b ≠ ww := fun same => fresh (same ▸ mem)
    simp only [State.blank, names, onlines, Function.update_of_ne other]
  have exact_length : s.historyLength = l.length + 1 := by
    have within := kept.within
    have counted := kept.alloc
    simp only [List.length_append, List.length_singleton] at within counted
    omega
  refine ⟨(s₁.blank ww).enter ww cptr name stillOn, ?_, lists', ?_, ?_, ?_, ?_, ?_⟩
  · simp only [addHistory, whowasAlloc, if_pos full, tail, cleaned, Option.map_some]
  · intro b
    rw [allocated']
    simp only [State.blank, allocated, kept.inUse]
    simp [or_comm]
  · rw [alloc']
    simp only [State.blank, alloc, kept.alloc]
    simp
  · rw [length']
    simp only [State.blank, length]
    exact kept.length
  · rw [length']
    simp only [State.blank, length, exact_length, List.length_cons, le_refl]
  · rw [entries', same_entries, History.step, exact_length, ← kept.entries, List.take_succ_cons]
    congr 1
    simp only [State.entries, List.map_append]
    rw [List.take_left' (List.length_map ..)]

theorem add_takes_new (kept : Kept s l history) (room : ¬ s.wwAlloc ≥ s.historyLength) {new : ι}
    (unused : s.allocated new = false) (cptr : γ) (name : CString) (stillOn : Bool) :
    ∃ s', addHistory s cptr name stillOn new = some s' ∧
      Kept s' (new :: l) (history.step s.historyLength (.add cptr name stillOn new)) := by
  have fresh : new ∉ l := by
    intro mem
    rw [(kept.inUse new).mpr mem] at unused
    cases unused
  let s₁ : State ι γ := { s with allocated := Function.update s.allocated new true, wwAlloc := s.wwAlloc + 1 }
  have lists : Lists s₁ l := ⟨kept.lists.distinct, kept.lists.chain, kept.lists.prev, kept.lists.tail,
    kept.lists.hashv, kept.lists.hash, kept.lists.client⟩
  have blank : (s₁.blank new).wprev new = none := Function.update_self ..
  obtain ⟨lists', entries', allocated', alloc', length'⟩ :=
    enter_lists (blank_lists lists fresh) fresh blank cptr name stillOn
  have same_entries : (s₁.blank new).entries l = s.entries l := by
    apply List.map_congr_left
    intro b mem
    have other : b ≠ new := fun same => fresh (same ▸ mem)
    simp only [s₁, State.blank, Function.update_of_ne other]
  have counted := kept.alloc
  refine ⟨(s₁.blank new).enter new cptr name stillOn, ?_, lists', ?_, ?_, ?_, ?_, ?_⟩
  · simp only [addHistory, whowasAlloc, if_neg room, Option.map_some, s₁]
  · intro b
    rw [allocated']
    by_cases same : b = new
    · simp [s₁, State.blank, same]
    · simp [s₁, State.blank, same, kept.inUse]
  · rw [alloc']
    simp [s₁, State.blank, counted]
  · rw [length']
    exact kept.length
  · rw [length', List.length_cons]
    simp only [s₁, State.blank]
    omega
  · rw [entries', same_entries, History.step, kept.entries, List.take_of_length_le]
    rw [List.length_cons, ← kept.entries, entries_length]
    omega

theorem add_kept (kept : Kept s l history) {cptr : γ} {name : CString} {stillOn : Bool} {new : ι}
    (unused : s.allocated new = false) (spares : ¬ (s.historyLength = 1 ∧ s.wwAlloc = 1)) :
    ∃ s' l', addHistory s cptr name stillOn new = some s' ∧
      Kept s' l' (history.step s.historyLength (.add cptr name stillOn new)) := by
  by_cases full : s.wwAlloc ≥ s.historyLength
  · have counted := kept.alloc
    have length := kept.length
    have within := kept.within
    have some_l : l ≠ [] := by
      intro empty
      rw [empty, List.length_nil] at counted
      omega
    obtain ⟨l₀, ww, rfl⟩ := (List.eq_nil_or_concat' l).resolve_left some_l
    have more : l₀ ≠ [] := by
      intro empty
      rw [empty, List.nil_append, List.length_singleton] at counted within
      exact spares ⟨by omega, counted⟩
    obtain ⟨s', done, kept'⟩ := add_recycles kept more full cptr name stillOn new
    exact ⟨s', ww :: l₀, done, kept'⟩
  · obtain ⟨s', done, kept'⟩ := add_takes_new kept full unused cptr name stillOn
    exact ⟨s', new :: l, done, kept'⟩

theorem off_kept (kept : Kept s l history) (cptr : γ) :
    ∃ s', clientGone s cptr = some s' ∧
      Kept s' l (history.step s.historyLength (.off cptr : Call ι γ)) := by
  obtain ⟨s', done, lists, entries, allocated, alloc, length⟩ := clientGone_lists kept.lists kept.alloc cptr
  refine ⟨s', done, lists, ?_, ?_, ?_, ?_, ?_⟩
  · rw [allocated]
    exact kept.inUse
  · rw [alloc]
    exact kept.alloc
  · rw [length]
    exact kept.length
  · rw [length]
    exact kept.within
  · rw [entries, kept.entries, History.step]

omit [DecidableEq ι] in
theorem kept_whole (lists : Lists s l) (inUse : ∀ ww, s.allocated ww = true ↔ ww ∈ l)
    (alloc : s.wwAlloc = l.length) (length : 1 ≤ s.historyLength) (within : l.length ≤ s.historyLength) :
    Kept s (l.take s.historyLength) ((s.entries l).take s.historyLength) := by
  rw [List.take_of_length_le within, List.take_of_length_le (by rwa [entries_length])]
  exact ⟨lists, inUse, alloc, length, within, rfl⟩

theorem free_lists {ww : ι} (lists : Lists s (l ++ [ww])) (more : l ≠ [])
    (inUse : ∀ b, s.allocated b = true ↔ b ∈ l ++ [ww]) (alloc : s.wwAlloc = (l ++ [ww]).length) :
    ∃ s', whowasFree s ww = some s' ∧ Lists s' l ∧ (∀ b, s'.allocated b = true ↔ b ∈ l) ∧
      s'.wwAlloc = l.length ∧ s'.historyLength = s.historyLength ∧ s'.entries l = s.entries l := by
  have fresh : ww ∉ l := by
    intro mem
    exact (List.nodup_append.mp lists.distinct).2.2 ww mem ww (by simp) rfl
  obtain ⟨s₁, cleaned, lists₁, allocated, names, onlines, -, counted, length⟩ := clean_lists lists more
  refine ⟨{ s₁ with allocated := Function.update s₁.allocated ww false, wwAlloc := s₁.wwAlloc - 1 }, ?_, ?_, ?_, ?_,
    length, ?_⟩
  · simp only [whowasFree, cleaned, Option.map_some]
  · exact ⟨lists₁.distinct, lists₁.chain, lists₁.prev, lists₁.tail, lists₁.hashv, lists₁.hash, lists₁.client⟩
  · intro b
    by_cases same : b = ww
    · simp [same, fresh]
    · simp [same, allocated, inUse]
  · simp [counted, alloc]
  · simp only [State.entries, names, onlines]

theorem trim_lists {left : Nat} (lists : Lists s l) (inUse : ∀ ww, s.allocated ww = true ↔ ww ∈ l)
    (alloc : s.wwAlloc = l.length) (length : 1 ≤ s.historyLength) (turns : l.length = left) :
    ∃ s', whowasTrim left s = some s' ∧
      Kept s' (l.take s.historyLength) ((s.entries l).take s.historyLength) := by
  induction left generalizing s l with
  | zero => exact ⟨s, rfl, kept_whole lists inUse alloc length (by omega)⟩
  | succ left ih =>
    rw [whowasTrim]
    by_cases past : s.wwAlloc > s.historyLength
    · have some_l : l ≠ [] := by
        intro empty
        rw [empty] at turns
        cases turns
      obtain ⟨l₀, ww, rfl⟩ := (List.eq_nil_or_concat' l).resolve_left some_l
      have counted := alloc
      rw [List.length_append, List.length_singleton] at counted
      have more : l₀ ≠ [] := by
        intro empty
        rw [empty, List.length_nil] at counted
        omega
      have tail : s.wwTail = some ww := by simp [lists.tail]
      have within : s.historyLength ≤ l₀.length := by omega
      obtain ⟨s₁, freed, lists₁, inUse₁, alloc₁, length₁, entries₁⟩ := free_lists lists more inUse alloc
      obtain ⟨s', trimmed, kept⟩ := ih lists₁ inUse₁ alloc₁ (length₁ ▸ length) (by simpa using turns)
      rw [length₁, entries₁] at kept
      refine ⟨s', ?_, ?_⟩
      · simp only [if_pos past, tail, freed, Option.bind_some, trimmed]
      · rw [List.take_append_of_le_length within]
        simp only [State.entries, List.map_append] at kept ⊢
        rwa [List.take_append_of_le_length (by rwa [List.length_map])]
    · rw [if_neg past]
      exact ⟨s, rfl, kept_whole lists inUse alloc length (by omega)⟩

theorem step_kept (kept : Kept s l history) {c : Call ι γ} (allowed : c.allowed s) (spares : c.spares s) :
    ∃ s' l', step s c = some s' ∧ Kept s' l' (history.step s.historyLength c) := by
  cases c with
  | add cptr name stillOn new => exact add_kept kept allowed spares
  | off cptr =>
    obtain ⟨s', done, kept'⟩ := off_kept kept cptr
    exact ⟨s', l, done, kept'⟩
  | realloc length =>
    have lists := kept.lists
    obtain ⟨s', done, kept'⟩ := trim_lists (s := { s with historyLength := length })
      ⟨lists.distinct, lists.chain, lists.prev, lists.tail, lists.hashv, lists.hash, lists.client⟩
      kept.inUse kept.alloc allowed kept.alloc.symm
    refine ⟨s', l.take length, done, ?_⟩
    rw [History.step, ← kept.entries]
    exact kept'

omit [DecidableEq ι] in
theorem empty_kept (empty : s.Empty) : Kept s [] [] := by
  refine ⟨⟨List.nodup_nil, empty.list, trivial, empty.tail, ?_, ⟨?_, ?_⟩, ⟨?_, ?_⟩⟩, ?_, empty.alloc, empty.length,
    Nat.zero_le _, rfl⟩
  · exact fun _ mem => absurd mem List.not_mem_nil
  · exact empty.hash
  · exact fun _ => trivial
  · exact empty.client
  · exact fun _ => trivial
  · intro ww
    simp [empty.allocated]

theorem run_kept (run : Run Call.spares s history) :
    ∃ l, Kept s l history := by
  induction run with
  | init empty => exact ⟨[], empty_kept empty⟩
  | call run allowed spares next ih =>
    obtain ⟨l, kept⟩ := ih
    obtain ⟨s', l', next', kept'⟩ := step_kept kept allowed spares
    rw [next] at next'
    cases next'
    exact ⟨l', kept'⟩

/-- As long as the only record of a history of length one is not taken again: the history
is a doubly linked list without cycles that ends at the tail and has `ww_alloc` records;
each hash chain has the records of its nicks and each client's chain those of the client,
in the order of the list; the records hold the newest nicks, so that what is taken again
or dropped is the oldest; and every call goes through. -/
theorem run_keeps_history {s : State ι γ} {history : History γ} (run : Run Call.spares s history) :
    ∃ l : List ι, l.Nodup ∧ Chain s.wnext s.wwList l ∧ Prevs s.wprev none l ∧ s.wwTail = l.getLast? ∧
      l.length = s.wwAlloc ∧ (∀ ww, s.allocated ww = true ↔ ww ∈ l) ∧
      (∀ i, Chain s.hash.next (s.hash.head i) (l.filter fun ww => hashWhowasName (s.name ww) = i)) ∧
      (∀ cptr, Chain s.client.next (s.client.head cptr) (l.filter fun ww => s.online ww = some cptr)) ∧
      l.map (fun ww => (s.name ww, s.online ww)) = history ∧
      ∀ c : Call ι γ, c.allowed s → c.spares s → (step s c).isSome := by
  obtain ⟨l, kept⟩ := run_kept run
  have lists := kept.lists
  refine ⟨l, lists.distinct, lists.chain, lists.prev, lists.tail, kept.alloc.symm, kept.inUse,
    fun i => by simpa using lists.hash.chain i, lists.client.chain, kept.entries, fun c allowed spares => ?_⟩
  obtain ⟨s', l', next, -⟩ := step_kept kept allowed spares
  rw [next]
  rfl

end

theorem nickA_clean : nul ∉ ['a'] := by decide
theorem nickA_byte : ∀ c ∈ ['a'], c.toNat < 256 := by decide

def nickA : CString := ⟨['a'], nickA_clean, nickA_byte⟩

/-- No record yet, and `NICKNAMEHISTORYLENGTH` is one. -/
def shortHistory : State Nat Nat :=
  ⟨fun _ => false, fun _ => 0, fun _ => nickA, fun _ => none, ⟨fun _ => none, fun _ => none, fun _ => none⟩,
    ⟨fun _ => none, fun _ => none, fun _ => none⟩, fun _ => none, fun _ => none, none, none, 0, 1⟩

theorem shortHistory_empty : shortHistory.Empty :=
  ⟨fun _ => rfl, fun _ => rfl, fun _ => rfl, rfl, rfl, rfl, Nat.le_refl 1⟩

/-- A client that changes its nick and then leaves: one record, on its nick's chain. -/
theorem run_keeps_history_one : ∃ (s : State Nat Nat) (history : History Nat), Run Call.spares s history ∧
    ∃ l : List Nat, l.length = s.wwAlloc ∧ l.map (fun ww => (s.name ww, s.online ww)) = history := by
  have first := @Run.call _ _ _ _ Call.spares _ _ _ (.add 7 nickA true 0) (.init shortHistory_empty) rfl
    (fun both => by cases both.2) rfl
  have second := Run.call (c := .off 7) first trivial trivial rfl
  obtain ⟨l, -, -, -, -, length, -, -, -, entries, -⟩ := run_keeps_history second
  exact ⟨_, _, second, l, length, entries⟩

theorem not_chain_of_loop {next : Nat → Option Nat} {a : Nat} (loop : next a = some a) (l : List Nat) :
    ¬ Chain next (some a) l := by
  induction l with
  | nil => exact fun chain => by cases chain
  | cons b l ih =>
    rintro ⟨same, rest⟩
    cases same
    rw [loop] at rest
    exact ih rest

/-- The second nick of a history of length one takes the only record again, which is then
linked to itself: no list starts at `ww_list`. -/
theorem run_not_keeps_history : ∃ (s : State Nat Nat) (history : History Nat), Run (fun _ _ => True) s history ∧
    ¬ ∃ l : List Nat, Chain s.wnext s.wwList l := by
  have first := @Run.call _ _ _ _ (fun _ _ => True) _ _ _ (.add 7 nickA false 0) (.init shortHistory_empty) rfl
    trivial rfl
  have second := Run.call (c := .add 7 nickA false 1) first rfl trivial rfl
  refine ⟨_, _, second, ?_⟩
  rintro ⟨l, chain⟩
  exact not_chain_of_loop (a := 0) (by decide) l chain

end Ircd.Whowas
