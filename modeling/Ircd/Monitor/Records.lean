import Ircd.Text.Strhash
import Mathlib.Data.List.Nodup
import Mathlib.Data.List.Perm.Basic
import Mathlib.Logic.Function.Basic

/-! The monitor lists of `monitor.c`: the records of monitored nicks, the list of each
client and the hash table of the records.

Records are reached by pointers of a type `ι`. `malloc` may give any pointer that is not
in use, so the pointer of a new record is an argument of the call that makes it.
-/

set_option autoImplicit false

namespace Ircd.Monitor
open Ircd.Text

/-- A nick that may be monitored: `add_monitor` passes over empty ones. -/
structure Nick extends CString where
  nonempty : chars ≠ []

structure Record (γ : Type) where
  nick : Nick
  watchers : List γ

structure State (ι γ : Type) where
  monitorTable : Nat → List ι
  heap : ι → Option (Record γ)
  monitor : γ → List ι
  monitors : γ → UInt32

section
variable {ι γ : Type} [DecidableEq ι] [DecidableEq γ] (crc32hash : Nat → Nat)

def Nick.hash (nick : Nick) : Nat := strhash crc32hash nick.chars

def State.isNick (s : State ι γ) (nick : Nick) (m : ι) : Bool :=
  (s.heap m).any fun r => nick.foldEq r.nick.toCString

/-- `hSeekMonitor`: the record found is moved to the front of its chain. -/
def hSeekMonitor (s : State ι γ) (nick : Nick) : Option ι × State ι γ :=
  let hashv := nick.hash crc32hash
  match (s.monitorTable hashv).find? (s.isNick nick) with
  | none => (none, s)
  | some m =>
    (some m, { s with
      monitorTable := Function.update s.monitorTable hashv (m :: (s.monitorTable hashv).erase m) })

def hAddMonitor (s : State ι γ) (m : ι) (nick : Nick) : State ι γ :=
  let hashv := nick.hash crc32hash
  { s with monitorTable := Function.update s.monitorTable hashv (m :: s.monitorTable hashv) }

def hRemMonitor (s : State ι γ) (m : ι) (nick : Nick) : State ι γ :=
  let hashv := nick.hash crc32hash
  { s with monitorTable := Function.update s.monitorTable hashv ((s.monitorTable hashv).erase m) }

def State.setRecord (s : State ι γ) (m : ι) (r : Option (Record γ)) : State ι γ :=
  { s with heap := Function.update s.heap m r }

def makeMonitor (s : State ι γ) (m : ι) (nick : Nick) : State ι γ :=
  hAddMonitor crc32hash (s.setRecord m (some ⟨nick, []⟩)) m nick

def freeMonitor (s : State ι γ) (m : ι) (r : Record γ) : State ι γ :=
  (hRemMonitor crc32hash s m r.nick).setRecord m none

def dropWatcher (s : State ι γ) (m : ι) (r : Record γ) (cptr : γ) : State ι γ :=
  let r : Record γ := { r with watchers := r.watchers.erase cptr }
  let s := s.setRecord m (some r)
  if r.watchers = [] then freeMonitor crc32hash s m r else s

def addWatcher (s : State ι γ) (m : ι) (r : Record γ) (cptr : γ) : State ι γ :=
  if cptr ∈ r.watchers then s
  else
    { s.setRecord m (some { r with watchers := cptr :: r.watchers }) with
      monitor := Function.update s.monitor cptr (m :: s.monitor cptr)
      monitors := Function.update s.monitors cptr (s.monitors cptr + 1) }

/-- `monitor_add_nick`, with `new` the pointer a new record gets. -/
def monitorAddNick (s : State ι γ) (cptr : γ) (nick : Nick) (new : ι) : Option (State ι γ) :=
  match hSeekMonitor crc32hash s nick with
  | (none, s) => some (addWatcher (makeMonitor crc32hash s new nick) new ⟨nick, []⟩ cptr)
  | (some m, s) =>
    match s.heap m with
    | none => none
    | some r => some (addWatcher s m r cptr)

/-- `monitor_del_nick`; `none` when the assertion in it fails. -/
def monitorDelNick (s : State ι γ) (cptr : γ) (nick : Nick) : Option (State ι γ) :=
  match hSeekMonitor crc32hash s nick with
  | (none, s) => some s
  | (some m, s) =>
    match s.heap m with
    | none => none
    | some r =>
      if cptr ∈ r.watchers then
        if m ∈ s.monitor cptr then
          some { dropWatcher crc32hash s m r cptr with
            monitor := Function.update s.monitor cptr ((s.monitor cptr).erase m)
            monitors := Function.update s.monitors cptr (s.monitors cptr - 1) }
        else none
      else some s

/-- The loop of `monitor_list_clean`; `none` when its assertion fails or a record is gone. -/
def cleanLoop (cptr : γ) : List ι → State ι γ → Option (State ι γ)
  | [], s => some s
  | m :: rest, s =>
    match s.heap m with
    | none => none
    | some r => if cptr ∈ r.watchers then cleanLoop cptr rest (dropWatcher crc32hash s m r cptr) else none

def monitorListClean (s : State ι γ) (cptr : γ) : Option (State ι γ) :=
  if s.monitor cptr = [] then some s
  else
    (cleanLoop crc32hash cptr (s.monitor cptr) s).map fun s =>
      { s with monitor := Function.update s.monitor cptr [], monitors := Function.update s.monitors cptr 0 }

inductive Call (ι γ : Type) where
  | add (cptr : γ) (nick : Nick) (new : ι)
  | del (cptr : γ) (nick : Nick)
  | clean (cptr : γ)

def step (s : State ι γ) : Call ι γ → Option (State ι γ)
  | .add cptr nick new => monitorAddNick crc32hash s cptr nick new
  | .del cptr nick => monitorDelNick crc32hash s cptr nick
  | .clean cptr => monitorListClean crc32hash s cptr

/-- A new pointer is one that is not in use, and `add_monitor` calls only below the limit
of the feature `MAXMONITOR`, which is an `unsigned int` where it is compared. -/
def Call.allowed (s : State ι γ) : Call ι γ → Prop
  | .add cptr _ new => s.heap new = none ∧ ∃ maxMonitor : UInt32, s.monitors cptr < maxMonitor
  | _ => True

def State.empty : State ι γ := ⟨fun _ => [], fun _ => none, fun _ => [], fun _ => 0⟩

inductive Run : State ι γ → Prop
  | init : Run State.empty
  | call {s s' : State ι γ} {c : Call ι γ} (run : Run s) (allowed : c.allowed s)
      (next : step crc32hash s c = some s') : Run s'

def Nick.folded (nick : Nick) : List Char := nick.chars.map toLower

structure Indexed (s : State ι γ) : Prop where
  placed : ∀ i m, m ∈ s.monitorTable i ↔ ∃ r, s.heap m = some r ∧ r.nick.hash crc32hash = i
  chains : ∀ i, (s.monitorTable i).Nodup
  single : ∀ m m' r r', s.heap m = some r → s.heap m' = some r' → r.nick.folded = r'.nick.folded → m = m'

/-- The lists of the clients and those of the records say the same. The lists of the
clients are an argument, as `monitor_list_clean` works through one before it resets it. -/
structure Linked (s : State ι γ) (list : γ → List ι) : Prop where
  watched : ∀ m r, s.heap m = some r → r.watchers ≠ [] ∧ r.watchers.Nodup
  linked : ∀ c m, m ∈ list c ↔ ∃ r, s.heap m = some r ∧ c ∈ r.watchers
  distinct : ∀ c, (list c).Nodup

def Counted (s : State ι γ) : Prop := ∀ c, (s.monitors c).toNat = (s.monitor c).length

variable {crc32hash}

theorem Nick.foldEq_iff (nick nick' : Nick) :
    nick.foldEq nick'.toCString = true ↔ nick.folded = nick'.folded :=
  CString.foldEq_iff nick.toCString nick'.toCString

theorem Nick.hash_congr {nick nick' : Nick} (same : nick.folded = nick'.folded) :
    nick.hash crc32hash = nick'.hash crc32hash := by
  have lower := congrArg (strhash crc32hash) same
  rwa [folded, folded, strhash_toLower, strhash_toLower] at lower

variable {s : State ι γ}

omit [DecidableEq ι] [DecidableEq γ] in
theorem State.isNick_iff {nick : Nick} {m : ι} :
    s.isNick nick m = true ↔ ∃ r, s.heap m = some r ∧ nick.folded = r.nick.folded := by
  unfold isNick
  cases s.heap m with
  | none => simp
  | some r => simp [Nick.foldEq_iff]

omit [DecidableEq γ] in
theorem hSeekMonitor_cases (index : Indexed crc32hash s) (nick : Nick) :
    (hSeekMonitor crc32hash s nick = (none, s) ∧ ∀ m r, s.heap m = some r → nick.folded ≠ r.nick.folded) ∨
    ∃ m r table, s.heap m = some r ∧ nick.folded = r.nick.folded ∧
      hSeekMonitor crc32hash s nick = (some m, { s with monitorTable := table }) ∧
      Indexed crc32hash { s with monitorTable := table } := by
  cases found : (s.monitorTable (nick.hash crc32hash)).find? (s.isNick nick) with
  | none =>
    refine .inl ⟨by simp only [hSeekMonitor, found], fun m r record same => ?_⟩
    have there : m ∈ s.monitorTable (nick.hash crc32hash) :=
      (index.placed _ m).mpr ⟨r, record, (Nick.hash_congr same).symm⟩
    exact List.find?_eq_none.mp found m there (State.isNick_iff.mpr ⟨r, record, same⟩)
  | some m =>
    obtain ⟨r, record, same⟩ := State.isNick_iff.mp (List.find?_some found)
    have there := List.mem_of_find?_eq_some found
    have front : ∀ i, (Function.update s.monitorTable (nick.hash crc32hash)
        (m :: (s.monitorTable (nick.hash crc32hash)).erase m) i).Perm (s.monitorTable i) := by
      intro i
      by_cases here : i = nick.hash crc32hash
      · rw [here, Function.update_self]
        exact (List.perm_cons_erase there).symm
      · rw [Function.update_of_ne here]
    refine .inr ⟨m, r, Function.update s.monitorTable (nick.hash crc32hash)
      (m :: (s.monitorTable (nick.hash crc32hash)).erase m), record, same,
      by simp only [hSeekMonitor, found], ?_, ?_, index.single⟩
    · intro i m'
      exact (front i).mem_iff.trans (index.placed i m')
    · intro i
      exact (front i).nodup_iff.mpr (index.chains i)

omit [DecidableEq γ] in
theorem Indexed.setWatchers (index : Indexed crc32hash s) {m : ι} {r : Record γ} (record : s.heap m = some r)
    (watchers : List γ) :
    Indexed crc32hash (s.setRecord m (some { r with watchers := watchers })) := by
  have nicks : ∀ m' r', (s.setRecord m (some { r with watchers := watchers })).heap m' = some r' →
      ∃ r'', s.heap m' = some r'' ∧ r''.nick = r'.nick := by
    intro m' r' record'
    by_cases here : m' = m
    · subst here
      simp only [State.setRecord, Function.update_self, Option.some.injEq] at record'
      exact ⟨r, record, by rw [← record']⟩
    · simp only [State.setRecord, Function.update_of_ne here] at record'
      exact ⟨r', record', rfl⟩
  refine ⟨fun i m' => ?_, index.chains, fun m₁ m₂ r₁ r₂ record₁ record₂ same => ?_⟩
  · refine (index.placed i m').trans ⟨?_, ?_⟩
    · rintro ⟨r', record', hash⟩
      by_cases here : m' = m
      · subst here
        rw [record] at record'
        cases record'
        exact ⟨{ r with watchers := watchers }, by simp [State.setRecord], hash⟩
      · exact ⟨r', by simp [State.setRecord, here, record'], hash⟩
    · rintro ⟨r', record', hash⟩
      obtain ⟨r'', record'', nick⟩ := nicks m' r' record'
      exact ⟨r'', record'', by rw [nick, hash]⟩
  · obtain ⟨r₁', record₁', nick₁⟩ := nicks m₁ r₁ record₁
    obtain ⟨r₂', record₂', nick₂⟩ := nicks m₂ r₂ record₂
    exact index.single m₁ m₂ r₁' r₂' record₁' record₂' (by rw [nick₁, nick₂, same])

omit [DecidableEq γ] in
theorem Indexed.make (index : Indexed crc32hash s) {m : ι} {nick : Nick} (fresh : s.heap m = none)
    (absent : ∀ m r, s.heap m = some r → nick.folded ≠ r.nick.folded) :
    Indexed crc32hash (makeMonitor crc32hash s m nick) := by
  have out : ∀ i, m ∉ s.monitorTable i := by
    intro i there
    obtain ⟨r, record, -⟩ := (index.placed i m).mp there
    rw [fresh] at record
    cases record
  refine ⟨fun i m' => ?_, fun i => ?_, fun m₁ m₂ r₁ r₂ record₁ record₂ same => ?_⟩
  · simp only [makeMonitor, hAddMonitor, State.setRecord]
    by_cases new : m' = m
    · subst new
      by_cases here : i = nick.hash crc32hash
      · simp [here]
      · simp [here, out i, Ne.symm here]
    · rw [Function.update_of_ne new, ← index.placed i m']
      by_cases here : i = nick.hash crc32hash
      · simp [here, new]
      · simp [here]
  · simp only [makeMonitor, hAddMonitor, State.setRecord]
    by_cases here : i = nick.hash crc32hash
    · rw [here, Function.update_self]
      exact List.nodup_cons.mpr ⟨out _, index.chains _⟩
    · rw [Function.update_of_ne here]
      exact index.chains i
  · simp only [makeMonitor, hAddMonitor, State.setRecord] at record₁ record₂
    by_cases new₁ : m₁ = m
    · by_cases new₂ : m₂ = m
      · rw [new₁, new₂]
      · rw [new₁, Function.update_self] at record₁
        rw [Function.update_of_ne new₂] at record₂
        cases record₁
        exact absurd same (absent m₂ r₂ record₂)
    · rw [Function.update_of_ne new₁] at record₁
      by_cases new₂ : m₂ = m
      · rw [new₂, Function.update_self] at record₂
        cases record₂
        exact absurd same.symm (absent m₁ r₁ record₁)
      · rw [Function.update_of_ne new₂] at record₂
        exact index.single m₁ m₂ r₁ r₂ record₁ record₂ same

omit [DecidableEq γ] in
theorem Indexed.free (index : Indexed crc32hash s) {m : ι} {r : Record γ} (record : s.heap m = some r) :
    Indexed crc32hash (freeMonitor crc32hash s m r) := by
  have other_chains : ∀ i, i ≠ r.nick.hash crc32hash → m ∉ s.monitorTable i := by
    intro i elsewhere there
    obtain ⟨r', record', hash⟩ := (index.placed i m).mp there
    rw [record] at record'
    cases record'
    exact elsewhere hash.symm
  refine ⟨fun i m' => ?_, fun i => ?_, fun m₁ m₂ r₁ r₂ record₁ record₂ same => ?_⟩
  · simp only [freeMonitor, hRemMonitor, State.setRecord]
    by_cases here : i = r.nick.hash crc32hash
    · rw [here, Function.update_self, (index.chains _).mem_erase_iff, index.placed]
      by_cases gone : m' = m
      · simp [gone]
      · simp [gone]
    · rw [Function.update_of_ne here]
      by_cases gone : m' = m
      · subst gone
        simp [other_chains i here]
      · rw [Function.update_of_ne gone, index.placed]
  · simp only [freeMonitor, hRemMonitor, State.setRecord]
    by_cases here : i = r.nick.hash crc32hash
    · rw [here, Function.update_self]
      exact (index.chains _).erase m
    · rw [Function.update_of_ne here]
      exact index.chains i
  · simp only [freeMonitor, hRemMonitor, State.setRecord] at record₁ record₂
    by_cases gone₁ : m₁ = m
    · rw [gone₁, Function.update_self] at record₁
      cases record₁
    · by_cases gone₂ : m₂ = m
      · rw [gone₂, Function.update_self] at record₂
        cases record₂
      · rw [Function.update_of_ne gone₁] at record₁
        rw [Function.update_of_ne gone₂] at record₂
        exact index.single m₁ m₂ r₁ r₂ record₁ record₂ same

theorem Indexed.dropWatcher (index : Indexed crc32hash s) {m : ι} {r : Record γ} (record : s.heap m = some r)
    (c : γ) : Indexed crc32hash (dropWatcher crc32hash s m r c) := by
  have kept := index.setWatchers record (r.watchers.erase c)
  unfold Monitor.dropWatcher
  by_cases last : r.watchers.erase c = []
  · rw [if_pos last]
    exact kept.free (by simp [State.setRecord])
  · rw [if_neg last]
    exact kept

variable (crc32hash) in
theorem dropWatcher_heap (s : State ι γ) (m : ι) (r : Record γ) (c : γ) :
    (dropWatcher crc32hash s m r c).heap = Function.update s.heap m
      (if r.watchers.erase c = [] then none else some { r with watchers := r.watchers.erase c }) := by
  unfold dropWatcher
  by_cases last : r.watchers.erase c = []
  · simp only [if_pos last, freeMonitor, hRemMonitor, State.setRecord, Function.update_idem]
  · simp only [if_neg last, State.setRecord]

theorem dropWatcher_monitor (s : State ι γ) (m : ι) (r : Record γ) (c : γ) :
    (dropWatcher crc32hash s m r c).monitor = s.monitor := by
  unfold dropWatcher
  simp only [State.setRecord, freeMonitor, hRemMonitor]
  split <;> rfl

theorem dropWatcher_monitors (s : State ι γ) (m : ι) (r : Record γ) (c : γ) :
    (dropWatcher crc32hash s m r c).monitors = s.monitors := by
  unfold dropWatcher
  simp only [State.setRecord, freeMonitor, hRemMonitor]
  split <;> rfl

variable (crc32hash) in
theorem Linked.dropWatcher {list : γ → List ι} (links : Linked s list) {m : ι} {r : Record γ}
    (record : s.heap m = some r) (c : γ) :
    Linked (dropWatcher crc32hash s m r c) (Function.update list c ((list c).erase m)) := by
  obtain ⟨-, once⟩ := links.watched m r record
  have heap := dropWatcher_heap crc32hash s m r c
  refine ⟨fun m' r' record' => ?_, fun d m' => ?_, fun d => ?_⟩
  · rw [heap] at record'
    by_cases here : m' = m
    · rw [here, Function.update_self] at record'
      by_cases last : r.watchers.erase c = []
      · rw [if_pos last] at record'
        cases record'
      · rw [if_neg last] at record'
        cases record'
        exact ⟨last, once.erase c⟩
    · rw [Function.update_of_ne here] at record'
      exact links.watched m' r' record'
  · rw [heap]
    have there : (∃ r', Function.update s.heap m (if r.watchers.erase c = [] then none
        else some { r with watchers := r.watchers.erase c }) m = some r' ∧ d ∈ r'.watchers) ↔
        d ≠ c ∧ d ∈ r.watchers := by
      rw [Function.update_self, ← once.mem_erase_iff]
      by_cases last : r.watchers.erase c = []
      · simp [last]
      · simp [last]
    have before : m ∈ list d ↔ d ∈ r.watchers := by simp [links.linked, record]
    by_cases here : m' = m
    · rw [here, there]
      by_cases same : d = c
      · subst same
        simp [(links.distinct d).mem_erase_iff]
      · simp [same, before]
    · rw [Function.update_of_ne here, ← links.linked d m']
      by_cases same : d = c
      · subst same
        simp [(links.distinct d).mem_erase_iff, here]
      · simp [same]
  · by_cases same : d = c
    · rw [same, Function.update_self]
      exact (links.distinct c).erase m
    · rw [Function.update_of_ne same]
      exact links.distinct d

/-- A client not on the list of a record is put on it, whether the record is new or not. -/
theorem Linked.addWatcher {list : γ → List ι} {m : ι} {r : Record γ} {c : γ}
    (watched : ∀ m' r', m' ≠ m → s.heap m' = some r' → r'.watchers ≠ [] ∧ r'.watchers.Nodup)
    (linked : ∀ d m', m' ∈ list d ↔ ∃ r', s.heap m' = some r' ∧ d ∈ r'.watchers) (distinct : ∀ d, (list d).Nodup)
    (record : s.heap m = some r) (once : r.watchers.Nodup) (out : c ∉ r.watchers) :
    Linked (s.setRecord m (some { r with watchers := c :: r.watchers }))
      (Function.update list c (m :: list c)) := by
  have before : ∀ d, m ∈ list d ↔ d ∈ r.watchers := by
    intro d
    simp [linked, record]
  refine ⟨fun m' r' record' => ?_, fun d m' => ?_, fun d => ?_⟩
  · by_cases here : m' = m
    · simp only [State.setRecord, here, Function.update_self, Option.some.injEq] at record'
      subst record'
      exact ⟨List.cons_ne_nil c _, List.nodup_cons.mpr ⟨out, once⟩⟩
    · simp only [State.setRecord, Function.update_of_ne here] at record'
      exact watched m' r' here record'
  · by_cases here : m' = m
    · subst here
      by_cases same : d = c
      · simp [State.setRecord, same]
      · simp [State.setRecord, same, before]
    · by_cases same : d = c
      · subst same
        simp [State.setRecord, here, linked]
      · simp [State.setRecord, here, same, linked]
  · by_cases same : d = c
    · rw [same, Function.update_self, List.nodup_cons, before c]
      exact ⟨out, distinct c⟩
    · rw [Function.update_of_ne same]
      exact distinct d

theorem cleanLoop_links {list : γ → List ι} {c : γ} (index : Indexed crc32hash s) (links : Linked s list) :
    ∃ s', cleanLoop crc32hash c (list c) s = some s' ∧ Indexed crc32hash s' ∧
      Linked s' (Function.update list c []) ∧ s'.monitor = s.monitor ∧ s'.monitors = s.monitors := by
  generalize rest_eq : list c = rest
  induction rest generalizing s list with
  | nil =>
    refine ⟨s, rfl, index, ?_, rfl, rfl⟩
    rwa [← rest_eq, Function.update_eq_self]
  | cons m rest ih =>
    have first : m ∈ list c := rest_eq ▸ List.mem_cons_self
    obtain ⟨r, record, watches⟩ := (links.linked c m).mp first
    have dropped := links.dropWatcher crc32hash record c
    have rest_after : Function.update list c ((list c).erase m) c = rest := by
      rw [Function.update_self, rest_eq, List.erase_cons_head]
    obtain ⟨s', done, index', links', same, same'⟩ := ih (index.dropWatcher record c) dropped rest_after
    refine ⟨s', ?_, index', ?_, same.trans (dropWatcher_monitor s m r c),
      same'.trans (dropWatcher_monitors s m r c)⟩
    · rw [cleanLoop, record]
      simp only [if_pos watches, done]
    · rwa [Function.update_idem] at links'

variable (crc32hash) in
structure Consistent (s : State ι γ) : Prop where
  index : Indexed crc32hash s
  links : Linked s s.monitor
  count : Counted s

omit [DecidableEq ι] [DecidableEq γ] in
theorem consistent_empty : Consistent crc32hash (State.empty : State ι γ) :=
  ⟨⟨by simp [State.empty], by simp [State.empty], by simp [State.empty]⟩,
    ⟨by simp [State.empty], by simp [State.empty], by simp [State.empty]⟩, by simp [Counted, State.empty]⟩

omit [DecidableEq ι] in
theorem Counted.add (count : Counted s) {c : γ} {max : UInt32} (room : s.monitors c < max) (m : ι) (d : γ) :
    (Function.update s.monitors c (s.monitors c + 1) d).toNat =
      (Function.update s.monitor c (m :: s.monitor c) d).length := by
  by_cases same : d = c
  · have below : (s.monitors c).toNat < max.toNat := UInt32.lt_iff_toNat_lt.mp room
    have bound := max.toNat_lt
    rw [same, Function.update_self, Function.update_self, List.length_cons, ← count c, UInt32.toNat_add,
      UInt32.toNat_one, Nat.mod_eq_of_lt (by omega)]
  · rw [Function.update_of_ne same, Function.update_of_ne same, count d]

theorem Counted.erase (count : Counted s) {c : γ} {m : ι} (there : m ∈ s.monitor c) (d : γ) :
    (Function.update s.monitors c (s.monitors c - 1) d).toNat =
      (Function.update s.monitor c ((s.monitor c).erase m) d).length := by
  by_cases same : d = c
  · have some_monitor := List.length_pos_of_mem there
    have one_le : 1 ≤ s.monitors c := by
      rw [UInt32.le_iff_toNat_le, UInt32.toNat_one, count c]
      exact some_monitor
    rw [same, Function.update_self, Function.update_self, List.length_erase_of_mem there,
      UInt32.toNat_sub_of_le _ _ one_le, UInt32.toNat_one, count c]
  · rw [Function.update_of_ne same, Function.update_of_ne same, count d]

omit [DecidableEq γ] in
theorem seek_consistent (con : Consistent crc32hash s) (nick : Nick) :
    (hSeekMonitor crc32hash s nick = (none, s) ∧ ∀ m r, s.heap m = some r → nick.folded ≠ r.nick.folded) ∨
    ∃ m r s₁, hSeekMonitor crc32hash s nick = (some m, s₁) ∧ s₁.heap m = some r ∧ s₁.monitors = s.monitors ∧
      Consistent crc32hash s₁ := by
  rcases hSeekMonitor_cases con.index nick with absent | ⟨m, r, table, record, same, seek, index⟩
  · exact .inl absent
  · refine .inr ⟨m, r, { s with monitorTable := table }, seek, record, rfl, index, ?_, con.count⟩
    exact ⟨con.links.watched, con.links.linked, con.links.distinct⟩

theorem make_consistent (con : Consistent crc32hash s) {c : γ} {nick : Nick} {new : ι} (fresh : s.heap new = none)
    (absent : ∀ m r, s.heap m = some r → nick.folded ≠ r.nick.folded) {max : UInt32} (room : s.monitors c < max) :
    Consistent crc32hash (addWatcher (makeMonitor crc32hash s new nick) new ⟨nick, []⟩ c) := by
  have record : (makeMonitor crc32hash s new nick).heap new = some ⟨nick, []⟩ := by
    simp [makeMonitor, hAddMonitor, State.setRecord]
  have others : ∀ m, m ≠ new → (makeMonitor crc32hash s new nick).heap m = s.heap m := fun m other =>
    Function.update_of_ne other _ _
  have linked : ∀ d m, m ∈ s.monitor d ↔
      ∃ r, (makeMonitor crc32hash s new nick).heap m = some r ∧ d ∈ r.watchers := by
    intro d m
    rw [con.links.linked d m]
    by_cases here : m = new
    · rw [here, record, fresh]
      simp
    · rw [others m here]
  have index := (con.index.make fresh absent).setWatchers record [c]
  have watched : ∀ m r, m ≠ new → (makeMonitor crc32hash s new nick).heap m = some r →
      r.watchers ≠ [] ∧ r.watchers.Nodup := fun m r other record' =>
    con.links.watched m r (others m other ▸ record')
  have links := Linked.addWatcher (c := c) watched linked con.links.distinct record List.nodup_nil List.not_mem_nil
  rw [addWatcher, if_neg List.not_mem_nil]
  refine ⟨⟨index.placed, index.chains, index.single⟩, ⟨links.watched, links.linked, links.distinct⟩, ?_⟩
  exact con.count.add room new

theorem addWatcher_consistent (con : Consistent crc32hash s) {c : γ} {m : ι} {r : Record γ}
    (record : s.heap m = some r) {max : UInt32} (room : s.monitors c < max) :
    Consistent crc32hash (addWatcher s m r c) := by
  unfold addWatcher
  by_cases watches : c ∈ r.watchers
  · rw [if_pos watches]
    exact con
  · rw [if_neg watches]
    have index := con.index.setWatchers record (c :: r.watchers)
    have links := Linked.addWatcher (c := c) (fun m' r' _ => con.links.watched m' r') con.links.linked
      con.links.distinct record (con.links.watched m r record).2 watches
    refine ⟨⟨index.placed, index.chains, index.single⟩, ⟨links.watched, links.linked, links.distinct⟩, ?_⟩
    exact con.count.add room m

theorem add_consistent (con : Consistent crc32hash s) {c : γ} {nick : Nick} {new : ι} (fresh : s.heap new = none)
    {max : UInt32} (room : s.monitors c < max) :
    ∃ s', monitorAddNick crc32hash s c nick new = some s' ∧ Consistent crc32hash s' := by
  unfold monitorAddNick
  rcases seek_consistent con nick with ⟨seek, absent⟩ | ⟨m, r, s₁, seek, record, same, con₁⟩
  · rw [seek]
    exact ⟨_, rfl, make_consistent con fresh absent room⟩
  · rw [seek]
    simp only [record]
    exact ⟨_, rfl, addWatcher_consistent con₁ record (same ▸ room)⟩

theorem del_consistent (con : Consistent crc32hash s) (c : γ) (nick : Nick) :
    ∃ s', monitorDelNick crc32hash s c nick = some s' ∧ Consistent crc32hash s' := by
  unfold monitorDelNick
  rcases seek_consistent con nick with ⟨seek, absent⟩ | ⟨m, r, s₁, seek, record, same, con₁⟩
  · rw [seek]
    exact ⟨s, rfl, con⟩
  · rw [seek]
    simp only [record]
    by_cases watches : c ∈ r.watchers
    · have there : m ∈ s₁.monitor c := (con₁.links.linked c m).mpr ⟨r, record, watches⟩
      have index := con₁.index.dropWatcher record c
      have links := con₁.links.dropWatcher crc32hash record c
      rw [if_pos watches, if_pos there]
      refine ⟨_, rfl, ⟨index.placed, index.chains, index.single⟩, ?_, con₁.count.erase there⟩
      exact ⟨links.watched, links.linked, links.distinct⟩
    · rw [if_neg watches]
      exact ⟨s₁, rfl, con₁⟩

theorem clean_consistent (con : Consistent crc32hash s) (c : γ) :
    ∃ s', monitorListClean crc32hash s c = some s' ∧ Consistent crc32hash s' := by
  unfold monitorListClean
  by_cases none_watched : s.monitor c = []
  · exact ⟨s, if_pos none_watched, con⟩
  · obtain ⟨s', done, index, links, same, same'⟩ := cleanLoop_links (c := c) con.index con.links
    refine ⟨_, by rw [if_neg none_watched, done, Option.map_some], ?_⟩
    rw [same, same']
    refine ⟨⟨index.placed, index.chains, index.single⟩, ⟨links.watched, links.linked, links.distinct⟩, fun d => ?_⟩
    by_cases here : d = c
    · simp [here]
    · simp [here, con.count d]

theorem step_consistent (con : Consistent crc32hash s) {call : Call ι γ} (allowed : call.allowed s) :
    ∃ s', step crc32hash s call = some s' ∧ Consistent crc32hash s' := by
  cases call with
  | add c nick new =>
    obtain ⟨fresh, max, room⟩ := allowed
    exact add_consistent con fresh room
  | del c nick => exact del_consistent con c nick
  | clean c => exact clean_consistent con c

theorem run_consistent (run : Run crc32hash s) : Consistent crc32hash s := by
  induction run with
  | init => exact consistent_empty
  | call run allowed next con =>
    obtain ⟨s', next', con'⟩ := step_consistent con allowed
    rw [next] at next'
    cases next'
    exact con'

/-- In every state that calls lead to: a client is on a record's list exactly when the
record is on the client's, no list has duplicates, the counter is the length, a record is
in the table, in the chain of its nick, exactly while it has clients, no nick has two
records, and no call fails an assertion. -/
theorem run_monitor_relation {s : State ι γ} (run : Run crc32hash s) :
    (∀ c m, (∃ r, s.heap m = some r ∧ c ∈ r.watchers) ↔ m ∈ s.monitor c) ∧
    (∀ m r, s.heap m = some r → r.watchers.Nodup) ∧
    (∀ c, (s.monitor c).Nodup) ∧
    (∀ c, (s.monitors c).toNat = (s.monitor c).length) ∧
    (∀ m, (∃ i, m ∈ s.monitorTable i) ↔ ∃ r, s.heap m = some r ∧ r.watchers ≠ []) ∧
    (∀ i m, m ∈ s.monitorTable i ↔ ∃ r, s.heap m = some r ∧ r.nick.hash crc32hash = i) ∧
    (∀ i, (s.monitorTable i).Nodup) ∧
    (∀ m m' r r', s.heap m = some r → s.heap m' = some r' → r.nick.folded = r'.nick.folded → m = m') ∧
    ∀ call : Call ι γ, call.allowed s → (step crc32hash s call).isSome := by
  have con := run_consistent run
  refine ⟨fun c m => (con.links.linked c m).symm, fun m r record => (con.links.watched m r record).2,
    con.links.distinct, con.count, fun m => ⟨?_, ?_⟩, con.index.placed, con.index.chains, con.index.single,
    fun call allowed => ?_⟩
  · rintro ⟨i, there⟩
    obtain ⟨r, record, -⟩ := (con.index.placed i m).mp there
    exact ⟨r, record, (con.links.watched m r record).1⟩
  · rintro ⟨r, record, -⟩
    exact ⟨r.nick.hash crc32hash, (con.index.placed _ m).mpr ⟨r, record, rfl⟩⟩
  · obtain ⟨s', next, -⟩ := step_consistent con allowed
    rw [next]
    rfl

end

theorem nickA_clean : nul ∉ ['a'] := by decide
theorem nickA_byte : ∀ c ∈ ['a'], c.toNat < 256 := by decide
theorem nickA_nonempty : ['a'] ≠ [] := by decide

def nickA : Nick := ⟨⟨['a'], nickA_clean, nickA_byte⟩, nickA_nonempty⟩

/-- Client 1 watches a nick: record 0 is on its list. -/
theorem run_monitor_relation_one :
    ∃ s : State Nat Nat, Run crc32Table s ∧ ∃ r, s.heap 0 = some r ∧ 1 ∈ r.watchers := by
  let s : State Nat Nat := addWatcher (makeMonitor crc32Table State.empty 0 nickA) 0 ⟨nickA, []⟩ 1
  have first : Run crc32Table s := .call (c := .add 1 nickA 0) .init ⟨rfl, 1, by decide⟩ rfl
  exact ⟨s, first, ((run_monitor_relation first).1 1 0).mpr (by decide)⟩

end Ircd.Monitor
