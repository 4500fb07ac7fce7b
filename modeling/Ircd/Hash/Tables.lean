import Ircd.Library.Chain
import Ircd.Library.HashChains
import Ircd.Text.Strhash
import Mathlib.Data.List.Perm.Basic
import Mathlib.Data.List.Nodup
import Mathlib.Data.List.Perm.Subperm
import Mathlib.Logic.Function.Basic

/-! The hash tables of `hash.c` for clients, channels and monitored nicks.

The three tables have the same functions. An entry is a cell with a link `hnext`; a lookup moves
the entry that it finds to the front of its bucket, and an entry that is taken out is linked to
itself. The walks along a bucket have a bound on their turns.
-/

set_option autoImplicit false

namespace Ircd.Hash
open Ircd.Text Ircd.Library

/-- The name of an entry: `strhash` is not made for empty ones. -/
structure Name extends CString where
  nonempty : chars ≠ []

structure Table (ι : Type) where
  table : Nat → Option ι
  hnext : ι → Option ι
  name : ι → Name
  status : ι → Nat

section
variable {ι : Type} [DecidableEq ι] (crc32hash : Nat → Nat)

def Name.hash (n : Name) : Nat := strhash crc32hash n.chars

/-- The common body of `hAddClient`, `hAddChannel` and `hAddMonitor`. -/
def link (t : Table ι) (hashv : Nat) (p : ι) : Table ι :=
  { t with hnext := Function.update t.hnext p (t.table hashv), table := Function.update t.table hashv (some p) }

def hAddClient (t : Table ι) (cptr : ι) : Table ι := link t ((t.name cptr).hash crc32hash) cptr

def hAddChannel (t : Table ι) (chptr : ι) : Table ι := link t ((t.name chptr).hash crc32hash) chptr

def hAddMonitor (t : Table ι) (moptr : ι) : Table ι := link t ((t.name moptr).hash crc32hash) moptr

/-- The common body of `hRemClient`, `hRemChannel` and `hRemMonitor`: whether the entry was found,
and the table. -/
def unlink (fuel : Nat) (t : Table ι) (hashv : Nat) (p : ι) : Option (Bool × Table ι) :=
  if t.table hashv = some p then
    some (true, { t with
      table := Function.update t.table hashv (t.hnext p)
      hnext := Function.update t.hnext p (some p) })
  else
    (findCell t.hnext (fun tmp => t.hnext tmp = some p) fuel (t.table hashv)).map fun
      | none => (false, t)
      | some tmp => (true, { t with hnext := Function.update (Function.update t.hnext tmp (t.hnext p)) p (some p) })

def hRemClient (fuel : Nat) (t : Table ι) (cptr : ι) : Option (Bool × Table ι) :=
  unlink fuel t ((t.name cptr).hash crc32hash) cptr

def hRemChannel (fuel : Nat) (t : Table ι) (chptr : ι) : Option (Bool × Table ι) :=
  unlink fuel t ((t.name chptr).hash crc32hash) chptr

def hRemMonitor (fuel : Nat) (t : Table ι) (moptr : ι) : Option (Bool × Table ι) :=
  unlink fuel t ((t.name moptr).hash crc32hash) moptr

/-- `hChangeClient`: the client is moved to the bucket of its new name; the name itself is written
by the caller. -/
def hChangeClient (fuel : Nat) (t : Table ι) (cptr : ι) (newname : Name) : Option (Table ι) :=
  (hRemClient crc32hash fuel t cptr).map fun removed => link removed.2 (newname.hash crc32hash) cptr

def seekLoop (hnext : ι → Option ι) (found : ι → Bool) : Nat → ι → Option (Option (ι × ι))
  | 0, _ => none
  | fuel + 1, prev =>
    match hnext prev with
    | none => some none
    | some p => if found p then some (some (prev, p)) else seekLoop hnext found fuel p

/-- The common body of `hSeekClient`, `hSeekChannel` and `hSeekMonitor`. -/
def seek (found : ι → Bool) (fuel : Nat) (t : Table ι) (hashv : Nat) : Option (Option ι × Table ι) :=
  match t.table hashv with
  | none => some (none, t)
  | some head =>
    if found head then some (some head, t)
    else
      (seekLoop t.hnext found fuel head).map fun
        | none => (none, t)
        | some (prev, p) => (some p, { t with
            hnext := Function.update (Function.update t.hnext prev (t.hnext p)) p (t.table hashv)
            table := Function.update t.table hashv (some p) })

def Table.named (t : Table ι) (name : CString) (p : ι) : Bool := name.foldEq (t.name p).toCString

/-- The bucket of a name that is looked up; `behind` is the memory behind it, which is read when
the name is empty. -/
def bucketOf (name : CString) (behind : List Char) : Nat := strhash crc32hash (name.chars ++ nul :: behind)

def Table.clientNamed (t : Table ι) (name : CString) (tMask : Nat) (cptr : ι) : Bool :=
  (t.status cptr &&& tMask) ≠ 0 && t.named name cptr

def hSeekClient (fuel : Nat) (t : Table ι) (name : CString) (behind : List Char) (tMask : Nat) :
    Option (Option ι × Table ι) :=
  seek (t.clientNamed name tMask) fuel t (bucketOf crc32hash name behind)

def hSeekChannel (fuel : Nat) (t : Table ι) (name : CString) (behind : List Char) : Option (Option ι × Table ι) :=
  seek (t.named name) fuel t (bucketOf crc32hash name behind)

def hSeekMonitor (fuel : Nat) (t : Table ι) (nick : CString) (behind : List Char) : Option (Option ι × Table ι) :=
  seek (t.named nick) fuel t (bucketOf crc32hash nick behind)

inductive Kind where
  | client | channel | monitor
  deriving DecidableEq, Repr

def hAdd : Kind → Table ι → ι → Table ι
  | .client => hAddClient crc32hash
  | .channel => hAddChannel crc32hash
  | .monitor => hAddMonitor crc32hash

def hRem : Kind → Nat → Table ι → ι → Option (Bool × Table ι)
  | .client => hRemClient crc32hash
  | .channel => hRemChannel crc32hash
  | .monitor => hRemMonitor crc32hash

def hSeek : Kind → Nat → Table ι → CString → List Char → Nat → Option (Option ι × Table ι)
  | .client, fuel, t, name, behind, tMask => hSeekClient crc32hash fuel t name behind tMask
  | .channel, fuel, t, name, behind, _ => hSeekChannel crc32hash fuel t name behind
  | .monitor, fuel, t, name, behind, _ => hSeekMonitor crc32hash fuel t name behind

def Table.wanted (t : Table ι) : Kind → CString → Nat → ι → Bool
  | .client, name, tMask => t.clientNamed name tMask
  | .channel, name, _ => t.named name
  | .monitor, name, _ => t.named name

def Table.setName (t : Table ι) (p : ι) (name : Name) : Table ι := { t with name := Function.update t.name p name }

def Table.setStatus (t : Table ι) (p : ι) (status : Nat) : Table ι :=
  { t with status := Function.update t.status p status }

/-- A call, or a write to the fields of an entry that the lookups read. `change` is
`hChangeClient` with the copy of the name behind it. -/
inductive Op (ι : Type) where
  | add (p : ι)
  | rem (p : ι)
  | change (p : ι) (newname : Name)
  | seek (name : CString) (behind : List Char) (tMask : Nat)
  | setName (p : ι) (name : Name)
  | setStatus (p : ι) (status : Nat)

def step (kind : Kind) (fuel : Nat) (t : Table ι) : Op ι → Option (Table ι)
  | .add p => some (hAdd crc32hash kind t p)
  | .rem p => (hRem crc32hash kind fuel t p).map Prod.snd
  | .change p newname => (hChangeClient crc32hash fuel t p newname).map fun t => t.setName p newname
  | .seek name behind tMask => (hSeek crc32hash kind fuel t name behind tMask).map Prod.snd
  | .setName p name => some (t.setName p name)
  | .setStatus p status => some (t.setStatus p status)

def run (kind : Kind) (fuel : Nat) (t : Table ι) (ops : List (Op ι)) : Option (Table ι) :=
  ops.foldlM (step crc32hash kind fuel) t

def linkedBy (linked : List ι) : Op ι → List ι
  | .add p => p :: linked
  | .rem p => linked.erase p
  | .change p _ => p :: linked.erase p
  | _ => linked

def linkedAfter (ops : List (Op ι)) : List ι := ops.foldl linkedBy []

/-- What the callers keep to: an entry is added when it is in no bucket, only clients are renamed
while they are in one, and a name is written over another only outside of the table or when the two
differ in case alone. -/
def Legal (kind : Kind) (name : ι → Name) (linked : List ι) : Op ι → Prop
  | .add p => p ∉ linked
  | .change _ _ => kind = .client
  | .setName p new => p ∉ linked ∨ new.foldEq (name p).toCString = true
  | _ => True

def namesBy (name : ι → Name) : Op ι → ι → Name
  | .change p new => Function.update name p new
  | .setName p new => Function.update name p new
  | _ => name

def LegalFrom (kind : Kind) : (ι → Name) → List ι → List (Op ι) → Prop
  | _, _, [] => True
  | name, linked, op :: ops =>
    Legal kind name linked op ∧ LegalFrom kind (namesBy name op) (linkedBy linked op) ops

/-- The buckets hold the linked entries, each in the bucket of its name. -/
structure Holds (t : Table ι) (linked : List ι) (chains : Nat → List ι) : Prop where
  chain : ∀ i, Chain t.hnext (t.table i) (chains i)
  sound : Chained (fun p => (t.name p).hash crc32hash) id chains
  mem : ∀ p, p ∈ linked ↔ p ∈ chains ((t.name p).hash crc32hash)
  distinct : linked.Nodup

variable {crc32hash} {t : Table ι} {linked : List ι} {chains : Nat → List ι} {kind : Kind} {fuel : Nat}

omit [DecidableEq ι] in
theorem Holds.nodup (holds : Holds crc32hash t linked chains) (i : Nat) : (chains i).Nodup := by
  simpa using holds.sound.distinct i

omit [DecidableEq ι] in
theorem Holds.mem_linked (holds : Holds crc32hash t linked chains) {i : Nat} {p : ι} (mem : p ∈ chains i) :
    p ∈ linked := by
  apply (holds.mem p).mpr
  have here : (t.name p).hash crc32hash = i := holds.sound.placed i p mem
  rw [here]
  exact mem

omit [DecidableEq ι] in
theorem Holds.length_le (holds : Holds crc32hash t linked chains) (i : Nat) :
    (chains i).length ≤ linked.length :=
  ((holds.nodup i).subperm fun _ mem => holds.mem_linked mem).length_le

omit [DecidableEq ι] in
theorem Holds.apart (holds : Holds crc32hash t linked chains) {i j : Nat} (other : j ≠ i) {p q : ι}
    (mem : p ∈ chains i) (mem_q : q ∈ chains j) : q ≠ p := by
  rintro rfl
  exact other ((holds.sound.placed j q mem_q).symm.trans (holds.sound.placed i q mem))

omit [DecidableEq ι] in
theorem Holds.update {t' : Table ι} {linked' : List ι} (holds : Holds crc32hash t linked chains) {i : Nat}
    {bucket : List ι} (names : t'.name = t.name) (here : Chain t'.hnext (t'.table i) bucket)
    (others : ∀ j ≠ i, t'.table j = t.table j ∧ ∀ p ∈ chains j, t'.hnext p = t.hnext p)
    (placed : ∀ p ∈ bucket, (t.name p).hash crc32hash = i) (distinct : bucket.Nodup)
    (mem_here : ∀ p, (t.name p).hash crc32hash = i → (p ∈ linked' ↔ p ∈ bucket))
    (mem_others : ∀ p, (t.name p).hash crc32hash ≠ i → (p ∈ linked' ↔ p ∈ linked)) (nodup : linked'.Nodup) :
    Holds crc32hash t' linked' (Function.update chains i bucket) := by
  refine ⟨fun j => ?_, ⟨fun j p mem => ?_, fun j => ?_⟩, fun p => ?_, nodup⟩
  · by_cases same : j = i
    · rw [same, Function.update_self]
      exact here
    · rw [Function.update_of_ne same, (others j same).1]
      exact (holds.chain j).congr (others j same).2
  · rw [names]
    by_cases same : j = i
    · rw [same, Function.update_self] at mem
      rw [same]
      exact placed p mem
    · rw [Function.update_of_ne same] at mem
      exact holds.sound.placed j p mem
  · by_cases same : j = i
    · rw [same, Function.update_self, List.map_id]
      exact distinct
    · rw [Function.update_of_ne same]
      exact holds.sound.distinct j
  · rw [names]
    by_cases same : (t.name p).hash crc32hash = i
    · rw [same, Function.update_self]
      exact mem_here p same
    · rw [Function.update_of_ne same, mem_others p same]
      exact holds.mem p

theorem Holds.link (holds : Holds crc32hash t linked chains) {p : ι} (absent : p ∉ linked) :
    Holds crc32hash (link t ((t.name p).hash crc32hash) p) (p :: linked)
      (Function.update chains ((t.name p).hash crc32hash) (p :: chains ((t.name p).hash crc32hash))) := by
  have outside : ∀ i, p ∉ chains i := fun i mem => absent (holds.mem_linked mem)
  refine holds.update rfl ?_ (fun j other => ⟨Function.update_of_ne other _ _, fun q mem => ?_⟩) ?_ ?_ ?_ ?_ ?_
  · change Chain _ (Function.update t.table _ (some p) _) _
    rw [Function.update_self]
    exact (holds.chain _).push (outside _)
  · have differ : q ≠ p := fun same => outside j (same ▸ mem)
    exact Function.update_of_ne differ _ _
  · intro q mem
    rcases List.mem_cons.mp mem with rfl | mem
    · rfl
    · exact holds.sound.placed _ q mem
  · exact List.nodup_cons.mpr ⟨outside _, holds.nodup _⟩
  · intro q here
    rw [List.mem_cons, List.mem_cons, holds.mem q, here]
  · intro q elsewhere
    have differ : q ≠ p := fun same => elsewhere (same ▸ rfl)
    simp [differ]
  · exact List.nodup_cons.mpr ⟨absent, holds.distinct⟩

theorem Holds.without (holds : Holds crc32hash t linked chains) {t' : Table ι} {p : ι} (bucket : List ι)
    (names : t'.name = t.name)
    (tables : ∀ j ≠ (t.name p).hash crc32hash, t'.table j = t.table j)
    (links : ∀ j ≠ (t.name p).hash crc32hash, ∀ q ∈ chains j, t'.hnext q = t.hnext q)
    (here : Chain t'.hnext (t'.table ((t.name p).hash crc32hash)) bucket)
    (rest : (chains ((t.name p).hash crc32hash)).Perm (p :: bucket)) :
    Holds crc32hash t' (linked.erase p) (Function.update chains ((t.name p).hash crc32hash) bucket) := by
  have nodup := rest.nodup (holds.nodup _)
  obtain ⟨gone, distinct⟩ := List.nodup_cons.mp nodup
  refine holds.update names here (fun j other => ⟨tables j other, links j other⟩) ?_ distinct ?_ ?_
    (holds.distinct.erase p)
  · intro q mem
    exact holds.sound.placed _ q (rest.mem_iff.mpr (List.mem_cons_of_mem p mem))
  · intro q at_i
    rw [holds.distinct.mem_erase_iff, holds.mem q, at_i, rest.mem_iff, List.mem_cons]
    constructor
    · rintro ⟨differ, same | mem⟩
      · exact absurd same differ
      · exact mem
    · intro mem
      exact ⟨fun same => gone (same ▸ mem), .inr mem⟩
  · intro q elsewhere
    have differ : q ≠ p := fun same => elsewhere (same ▸ rfl)
    exact List.mem_erase_of_ne differ

omit [DecidableEq ι] in
theorem perm_front (front : List ι) (prev p : ι) (back : List ι) :
    (front ++ prev :: p :: back).Perm (p :: (front ++ prev :: back)) :=
  (List.Perm.append_left front (List.Perm.swap p prev back)).trans List.perm_middle

theorem Holds.unlink (holds : Holds crc32hash t linked chains) {p : ι} (mem_p : p ∈ linked)
    (enough : linked.length < fuel) :
    ∃ t' chains', unlink fuel t ((t.name p).hash crc32hash) p = some (true, t') ∧ t'.name = t.name ∧
      t'.status = t.status ∧ Holds crc32hash t' (linked.erase p) chains' := by
  have mem_chain := (holds.mem p).mp mem_p
  have chain := holds.chain ((t.name p).hash crc32hash)
  have nodup := holds.nodup ((t.name p).hash crc32hash)
  unfold Hash.unlink
  obtain ⟨front, back, split⟩ := List.append_of_mem mem_chain
  rw [split] at chain nodup
  -- either the entry is the first of its bucket or there is one before it
  rcases List.eq_nil_or_concat front with rfl | ⟨front, prev, rfl⟩
  · obtain ⟨head, rest⟩ := chain
    obtain ⟨gone, -⟩ := List.nodup_cons.mp nodup
    rw [if_pos head]
    refine ⟨_, _, rfl, rfl, rfl, holds.without back rfl ?_ ?_ ?_ (List.Perm.of_eq split)⟩
    · intro j other
      exact Function.update_of_ne other _ _
    · intro j other q mem
      exact Function.update_of_ne (holds.apart other mem_chain mem) _ _
    · change Chain (Function.update t.hnext p (some p)) (Function.update t.table _ (t.hnext p) _) back
      rw [Function.update_self]
      refine rest.congr fun q mem => ?_
      have differ : q ≠ p := fun same => gone (same ▸ mem)
      exact Function.update_of_ne differ _ _
  · rw [List.concat_eq_append, List.append_assoc, List.singleton_append] at split chain nodup
    have moved := perm_front front prev p back
    have gone : p ∉ front ++ prev :: back := (List.nodup_cons.mp (moved.nodup nodup)).1
    have not_head : t.table ((t.name p).hash crc32hash) ≠ some p := by
      intro head
      rw [head] at chain
      obtain ⟨_, same, -⟩ := chain.exists_cons
      apply gone
      cases front with
      | nil =>
        cases same
        simp
      | cons c front =>
        cases same
        simp
    have short : (front ++ prev :: p :: back).length < fuel := by
      have := holds.length_le ((t.name p).hash crc32hash)
      rw [split] at this
      omega
    rw [if_neg not_head, chain.findCell _ short, chain.find_before nodup]
    refine ⟨_, _, rfl, rfl, rfl, holds.without (front ++ prev :: back) rfl (fun j other => rfl) ?_ ?_ ?_⟩
    · intro j other q mem
      have at_prev : prev ∈ chains ((t.name p).hash crc32hash) := by
        rw [split]
        simp
      change Function.update (Function.update t.hnext prev (t.hnext p)) p (some p) q = t.hnext q
      rw [Function.update_of_ne (holds.apart other mem_chain mem),
        Function.update_of_ne (holds.apart other at_prev mem)]
    · change Chain (Function.update (Function.update t.hnext prev (t.hnext p)) p (some p)) (t.table _) _
      refine (chain.unlink nodup).congr fun q mem => ?_
      have differ : q ≠ p := fun same => gone (same ▸ mem)
      exact Function.update_of_ne differ _ _
    · rw [split]
      exact moved

theorem Holds.unlink_absent (holds : Holds crc32hash t linked chains) {p : ι} (absent : p ∉ linked)
    (enough : linked.length < fuel) (i : Nat) : Hash.unlink fuel t i p = some (false, t) := by
  have outside : p ∉ chains i := fun mem => absent (holds.mem_linked mem)
  have chain := holds.chain i
  have not_head : t.table i ≠ some p := by
    intro head
    rw [head] at chain
    obtain ⟨rest, same, -⟩ := chain.exists_cons
    rw [same] at outside
    simp at outside
  have none_found : (chains i).find? (fun tmp => t.hnext tmp = some p) = none := by
    apply List.find?_eq_none.mpr
    intro q mem link
    exact outside (chain.next_mem mem (of_decide_eq_true link))
  have short : (chains i).length < fuel := by
    have := holds.length_le i
    omega
  unfold Hash.unlink
  rw [if_neg not_head, chain.findCell _ short, none_found]
  rfl

omit [DecidableEq ι] in
/-- The loop behind the first entry finds the first entry that is wanted, with the one before it. -/
theorem seekLoop_spec {hnext : ι → Option ι} (found : ι → Bool) {p : Option ι} {prev : ι} {back : List ι}
    (chain : Chain hnext p (prev :: back)) (enough : back.length < fuel) :
    back.find? found = none ∧ seekLoop hnext found fuel prev = some none ∨
      ∃ front last q rest, prev :: back = front ++ last :: q :: rest ∧ back.find? found = some q ∧
        found q = true ∧ seekLoop hnext found fuel prev = some (some (last, q)) := by
  induction back generalizing p prev fuel with
  | nil =>
    obtain ⟨fuel, rfl⟩ : ∃ n, fuel = n + 1 := ⟨fuel - 1, by simp at enough; omega⟩
    refine .inl ⟨rfl, ?_⟩
    have last : hnext prev = none := chain.2
    simp only [seekLoop, last]
  | cons q back ih =>
    obtain ⟨fuel, rfl⟩ : ∃ n, fuel = n + 1 := ⟨fuel - 1, by simp at enough; omega⟩
    have behind : hnext prev = some q := chain.2.1
    cases hit : found q with
    | true =>
      refine .inr ⟨[], prev, q, back, rfl, List.find?_cons_of_pos hit, hit, ?_⟩
      simp only [seekLoop, behind, hit, if_true]
    | false =>
      have walks : seekLoop hnext found (fuel + 1) prev = seekLoop hnext found fuel q := by
        simp only [seekLoop, behind, hit, Bool.false_eq_true, if_false]
      rw [walks, List.find?_cons_of_neg (by simp [hit])]
      rcases ih chain.2 (by simpa using enough) with missing | ⟨front, last, r, rest, split, first, hit_r, loop⟩
      · exact .inl missing
      · exact .inr ⟨prev :: front, last, r, rest, by rw [split, List.cons_append], first, hit_r, loop⟩

theorem Holds.seek (holds : Holds crc32hash t linked chains) (found : ι → Bool) (i : Nat)
    (enough : linked.length < fuel) :
    ∃ t' chains', seek found fuel t i = some ((chains i).find? found, t') ∧ t'.name = t.name ∧
      t'.status = t.status ∧ Holds crc32hash t' linked chains' := by
  have chain := holds.chain i
  have nodup := holds.nodup i
  have short := holds.length_le i
  unfold Hash.seek
  cases bucket : chains i with
  | nil =>
    rw [bucket] at chain
    rw [chain_nil.mp chain]
    exact ⟨t, chains, rfl, rfl, rfl, holds⟩
  | cons head back =>
    rw [bucket] at chain nodup short
    have at_head := chain.1
    rw [at_head]
    dsimp only
    cases hit : found head with
    | true =>
      rw [if_pos rfl, List.find?_cons_of_pos hit]
      exact ⟨t, chains, rfl, rfl, rfl, holds⟩
    | false =>
      rw [if_neg (by simp), List.find?_cons_of_neg (by simp [hit])]
      have enough_loop : back.length < fuel := by
        rw [List.length_cons] at short
        omega
      rcases seekLoop_spec found chain enough_loop with ⟨missing, loop⟩ |
        ⟨front, prev, p, rest, split, first, -, loop⟩
      · rw [loop, missing]
        exact ⟨t, chains, rfl, rfl, rfl, holds⟩
      · rw [loop, first]
        rw [split] at chain nodup
        have moved := perm_front front prev p rest
        have gone : p ∉ front ++ prev :: rest := (List.nodup_cons.mp (moved.nodup nodup)).1
        have perm : (chains i).Perm (p :: (front ++ prev :: rest)) := by
          rw [bucket, split]
          exact moved
        have at_p : p ∈ chains i := perm.mem_iff.mpr List.mem_cons_self
        have at_prev : prev ∈ chains i := perm.mem_iff.mpr (by simp)
        refine ⟨_, _, rfl, rfl, rfl, holds.update rfl ?_ (fun j other => ⟨Function.update_of_ne other _ _, ?_⟩)
          ?_ (moved.nodup nodup) ?_ (fun _ _ => Iff.rfl) holds.distinct⟩
        · change Chain _ (Function.update t.table i (some p) i) _
          rw [Function.update_self]
          have pushed := (chain.unlink nodup).push gone
          rw [at_head] at pushed
          exact pushed
        · intro q mem
          change Function.update (Function.update t.hnext prev (t.hnext p)) p _ q = t.hnext q
          rw [Function.update_of_ne (holds.apart other at_p mem), Function.update_of_ne (holds.apart other at_prev mem)]
        · intro q mem
          exact holds.sound.placed i q (perm.mem_iff.mpr mem)
        · intro q at_i
          rw [holds.mem q, at_i]
          exact perm.mem_iff

omit [DecidableEq ι] in
theorem named_bucket {name : CString} {p : ι} (named : t.named name p = true) (behind : List Char) :
    bucketOf crc32hash name behind = (t.name p).hash crc32hash := by
  have folds := (name.foldEq_iff (t.name p).toCString).mp named
  have some_name : name.chars ≠ [] := by
    intro empty
    apply (t.name p).nonempty
    rw [empty, List.map_nil] at folds
    exact List.map_eq_nil_iff.mp folds.symm
  unfold bucketOf Name.hash
  rw [strhash_append crc32hash some_name name.nul_free, ← strhash_toLower, folds, strhash_toLower]

omit [DecidableEq ι] in
theorem wanted_named {name : CString} {tMask : Nat} {p : ι} (wanted : t.wanted kind name tMask p = true) :
    t.named name p = true := by
  cases kind with
  | client => exact (Bool.and_eq_true_iff.mp wanted).2
  | channel => exact wanted
  | monitor => exact wanted

theorem hSeek_eq (name : CString) (behind : List Char) (tMask : Nat) :
    hSeek crc32hash kind fuel t name behind tMask =
      seek (t.wanted kind name tMask) fuel t (bucketOf crc32hash name behind) := by
  cases kind <;> rfl

theorem Holds.hSeek (holds : Holds crc32hash t linked chains) (kind : Kind) (name : CString) (behind : List Char) (tMask : Nat)
    (enough : linked.length < fuel) :
    ∃ found t', hSeek crc32hash kind fuel t name behind tMask = some (found, t') ∧
      (∀ p, found = some p → p ∈ linked ∧ t.wanted kind name tMask p = true) ∧
      (found = none → ∀ p ∈ linked, t.wanted kind name tMask p = false) ∧ t'.name = t.name ∧
      t'.status = t.status ∧ ∃ chains', Holds crc32hash t' linked chains' := by
  obtain ⟨t', chains', seeks, names, statuses, holds'⟩ :=
    holds.seek (t.wanted kind name tMask) (bucketOf crc32hash name behind) enough
  refine ⟨_, t', (hSeek_eq name behind tMask).trans seeks, ?_, ?_, names, statuses, chains', holds'⟩
  · intro p found
    exact ⟨holds.mem_linked (List.mem_of_find?_eq_some found), List.find?_some found⟩
  · intro missing p mem
    by_contra wanted
    have wanted : t.wanted kind name tMask p = true := by simpa using wanted
    have in_bucket : p ∈ chains (bucketOf crc32hash name behind) := by
      rw [named_bucket (wanted_named wanted)]
      exact (holds.mem p).mp mem
    exact List.find?_eq_none.mp missing p in_bucket wanted

omit [DecidableEq ι] in
theorem hash_foldEq {a b : Name} (same : a.foldEq b.toCString = true) : a.hash crc32hash = b.hash crc32hash := by
  unfold Name.hash
  rw [← strhash_toLower, (a.foldEq_iff b.toCString).mp same, strhash_toLower]

theorem Holds.setName (holds : Holds crc32hash t linked chains) {p : ι} {new : Name}
    (same : ∀ i, p ∈ chains i → new.hash crc32hash = i) (outside : p ∉ linked → p ∉ chains (new.hash crc32hash)) :
    Holds crc32hash (t.setName p new) linked chains := by
  refine ⟨holds.chain, ⟨fun i q mem => ?_, holds.sound.distinct⟩, fun q => ?_, holds.distinct⟩
  · change (Function.update t.name p new q).hash crc32hash = i
    by_cases here : q = p
    · rw [here, Function.update_self]
      exact same i (here ▸ mem)
    · rw [Function.update_of_ne here]
      exact holds.sound.placed i q mem
  · change q ∈ linked ↔ q ∈ chains ((Function.update t.name p new q).hash crc32hash)
    by_cases here : q = p
    · rw [here, Function.update_self]
      constructor
      · intro mem
        have there := (holds.mem p).mp mem
        rw [same _ there]
        exact there
      · intro mem
        by_contra absent
        exact outside absent mem
    · rw [Function.update_of_ne here]
      exact holds.mem q

theorem Holds.setName_outside (holds : Holds crc32hash t linked chains) {p : ι} (absent : p ∉ linked) (new : Name) :
    Holds crc32hash (t.setName p new) linked chains :=
  holds.setName (fun _ mem => absurd (holds.mem_linked mem) absent) fun _ mem => absent (holds.mem_linked mem)

theorem Holds.hRem (holds : Holds crc32hash t linked chains) (kind : Kind) (p : ι) (enough : linked.length < fuel) :
    ∃ t' chains', hRem crc32hash kind fuel t p = some (decide (p ∈ linked), t') ∧ t'.name = t.name ∧
      t'.status = t.status ∧ Holds crc32hash t' (linked.erase p) chains' := by
  have rem_eq : Hash.hRem crc32hash kind fuel t p = Hash.unlink fuel t ((t.name p).hash crc32hash) p := by
    cases kind <;> rfl
  rw [rem_eq]
  by_cases mem : p ∈ linked
  · rw [decide_eq_true mem]
    exact holds.unlink mem enough
  · rw [decide_eq_false mem, List.erase_of_not_mem mem]
    exact ⟨t, chains, holds.unlink_absent mem enough _, rfl, rfl, holds⟩

theorem hAdd_eq (p : ι) : hAdd crc32hash kind t p = link t ((t.name p).hash crc32hash) p := by
  cases kind <;> rfl

theorem Holds.change (holds : Holds crc32hash t linked chains) (p : ι) (new : Name) (enough : linked.length < fuel) :
    ∃ t' chains', hChangeClient crc32hash fuel t p new = some t' ∧ t'.name = t.name ∧ t'.status = t.status ∧
      Holds crc32hash (t'.setName p new) (p :: linked.erase p) chains' := by
  obtain ⟨removed, chains', removes, names, statuses, holds'⟩ :=
    holds.hRem .client p enough
  have absent : p ∉ linked.erase p := holds.distinct.not_mem_erase
  have named : ((removed.setName p new).name p).hash crc32hash = new.hash crc32hash := by
    change (Function.update removed.name p new p).hash crc32hash = _
    rw [Function.update_self]
  have linked' := (holds'.setName_outside absent new).link absent
  rw [named] at linked'
  unfold hChangeClient
  change hRemClient crc32hash fuel t p = _ at removes
  rw [removes]
  exact ⟨_, _, rfl, names, statuses, linked'⟩

theorem Holds.step (holds : Holds crc32hash t linked chains) {op : Op ι} (legal : Legal kind t.name linked op)
    (enough : linked.length < fuel) :
    ∃ t' chains', step crc32hash kind fuel t op = some t' ∧ t'.name = namesBy t.name op ∧
      Holds crc32hash t' (linkedBy linked op) chains' := by
  cases op with
  | add p =>
    refine ⟨_, _, congrArg some (hAdd_eq p), rfl, holds.link legal⟩
  | rem p =>
    obtain ⟨t', chains', removes, names, -, holds'⟩ := holds.hRem kind p enough
    exact ⟨t', chains', by rw [Hash.step, removes, Option.map_some], names, holds'⟩
  | change p new =>
    obtain ⟨t', chains', changes, names, -, holds'⟩ := holds.change p new enough
    refine ⟨t'.setName p new, chains', by rw [Hash.step, changes, Option.map_some], ?_, holds'⟩
    change Function.update t'.name p new = Function.update t.name p new
    rw [names]
  | seek name behind tMask =>
    obtain ⟨found, t', seeks, -, -, names, -, chains', holds'⟩ := holds.hSeek kind name behind tMask enough
    exact ⟨t', chains', by rw [Hash.step, seeks, Option.map_some], names, holds'⟩
  | setName p new =>
    refine ⟨_, chains, rfl, rfl, ?_⟩
    rcases legal with absent | same
    · exact holds.setName_outside absent new
    · refine holds.setName (fun i mem => ?_) fun absent mem => absent (holds.mem_linked mem)
      rw [hash_foldEq same]
      exact holds.sound.placed i p mem
  | setStatus p status =>
    exact ⟨_, chains, rfl, rfl, ⟨holds.chain, holds.sound, holds.mem, holds.distinct⟩⟩

theorem length_linkedBy (linked : List ι) (op : Op ι) : (linkedBy linked op).length ≤ linked.length + 1 := by
  cases op with
  | add p => exact Nat.le_refl _
  | rem p => exact Nat.le_succ_of_le List.length_erase_le
  | change p new => exact Nat.succ_le_succ List.length_erase_le
  | _ => exact Nat.le_succ _

theorem length_linked (ops : List (Op ι)) (linked : List ι) :
    (ops.foldl linkedBy linked).length ≤ linked.length + ops.length := by
  induction ops generalizing linked with
  | nil => exact Nat.le_refl _
  | cons op ops ih =>
    have now := length_linkedBy linked op
    have later := ih (linkedBy linked op)
    rw [List.foldl_cons, List.length_cons]
    omega

theorem Holds.run {ops : List (Op ι)} (holds : Holds crc32hash t linked chains)
    (legal : LegalFrom kind t.name linked ops) (enough : linked.length + ops.length < fuel) :
    ∃ t' chains', run crc32hash kind fuel t ops = some t' ∧ Holds crc32hash t' (ops.foldl linkedBy linked) chains' := by
  induction ops generalizing t linked chains with
  | nil => exact ⟨t, chains, rfl, holds⟩
  | cons op ops ih =>
    obtain ⟨now, later⟩ := legal
    rw [List.length_cons] at enough
    have room : linked.length < fuel := by omega
    obtain ⟨mid, chains_mid, steps, names, holds_mid⟩ := holds.step now room
    rw [← names] at later
    have grows := length_linkedBy linked op
    obtain ⟨t', chains', runs, holds'⟩ := ih holds_mid later (by omega)
    refine ⟨t', chains', ?_, holds'⟩
    rw [Hash.run, List.foldlM_cons, steps]
    exact runs

omit [DecidableEq ι] in
theorem strhash_lt (s : List Char) : strhash crc32hash s < hashSize := by
  have positive : 0 < hashSize := by decide
  cases s <;> exact Nat.mod_lt _ positive

omit [DecidableEq ι] in
theorem Holds.perm (holds : Holds crc32hash t linked chains) : (entriesBelow hashSize chains).Perm linked := by
  apply (List.perm_ext_iff_of_nodup ?_ holds.distinct).mpr
  · intro p
    constructor
    · intro mem
      obtain ⟨i, -, mem⟩ := List.mem_flatMap.mp mem
      exact holds.mem_linked mem
    · intro mem
      exact List.mem_flatMap.mpr ⟨_, List.mem_range.mpr (strhash_lt _), (holds.mem p).mp mem⟩
  · simpa using holds.sound.nodup_entriesBelow hashSize

def Table.empty (name : ι → Name) (status : ι → Nat) : Table ι :=
  { table := fun _ => none, hnext := some, name := name, status := status }

omit [DecidableEq ι] in
theorem empty_holds (name : ι → Name) (status : ι → Nat) :
    Holds crc32hash (Table.empty name status) [] fun _ => [] :=
  ⟨fun _ => rfl, chained_empty, by simp, List.nodup_nil⟩

end

/-- After any calls the buckets hold exactly the entries that were added and not removed, each in
the bucket of its name, and a lookup returns an entry if and only if one is wanted. -/
theorem tables_hold {ι : Type} [DecidableEq ι] (crc32hash : Nat → Nat) (kind : Kind) (name : ι → Name)
    (status : ι → Nat) (ops : List (Op ι)) (legal : LegalFrom kind name [] ops) (fuel : Nat)
    (enough : ops.length < fuel) :
    ∃ t chains, run crc32hash kind fuel (Table.empty name status) ops = some t ∧
      (∀ i, Chain t.hnext (t.table i) (chains i)) ∧
      (∀ i, ∀ p ∈ chains i, (t.name p).hash crc32hash = i) ∧
      (entriesBelow hashSize chains).Perm (linkedAfter ops) ∧
      ∀ wanted behind tMask, ∃ found t', hSeek crc32hash kind fuel t wanted behind tMask = some (found, t') ∧
        (∀ p, found = some p → p ∈ linkedAfter ops ∧ t.wanted kind wanted tMask p = true) ∧
        (found.isSome ↔ ∃ p ∈ linkedAfter ops, t.wanted kind wanted tMask p = true) := by
  have start : Holds crc32hash (Table.empty name status) [] fun _ => [] := empty_holds name status
  obtain ⟨t, chains, runs, holds⟩ := start.run legal (by simpa using enough)
  have short : (linkedAfter ops).length < fuel := by
    have := length_linked ops []
    rw [List.length_nil, Nat.zero_add] at this
    exact Nat.lt_of_le_of_lt this enough
  refine ⟨t, chains, runs, holds.chain, holds.sound.placed, holds.perm, fun wanted behind tMask => ?_⟩
  obtain ⟨found, t', seeks, right, missing, -⟩ := holds.hSeek kind wanted behind tMask short
  refine ⟨found, t', seeks, right, ?_, ?_⟩
  · intro some_found
    obtain ⟨p, found_p⟩ := Option.isSome_iff_exists.mp some_found
    exact ⟨p, right p found_p⟩
  · rintro ⟨p, mem, wanted_p⟩
    by_contra none_found
    have empty : found = none := by simpa using none_found
    rw [missing empty p mem] at wanted_p
    cases wanted_p

def annName : Name := ⟨⟨['a', 'n', 'n'], by decide, by decide⟩, by decide⟩

def bobName : Name := ⟨⟨['b', 'o', 'b'], by decide, by decide⟩, by decide⟩

def pairOps : List (Op Bool) :=
  [.add true, .add false, .seek annName.toCString [] 1, .change true bobName, .rem false, .setName false bobName]

theorem tables_hold_pair :
    ∃ t chains, run (fun n => n) .client 7 (Table.empty (fun _ => annName) fun _ => 1) pairOps = some t ∧
      (entriesBelow hashSize chains).Perm [true] ∧
      ∀ i, ∀ p ∈ chains i, (t.name p).hash (fun n => n) = i := by
  have legal : LegalFrom .client (fun _ => annName) [] pairOps := by simp [pairOps, LegalFrom, Legal, linkedBy]
  obtain ⟨t, chains, runs, -, placed, entries, -⟩ :=
    tables_hold (fun n => n) .client (fun _ => annName) (fun _ => 1) pairOps legal 7 (by decide)
  have left : linkedAfter pairOps = [true] := by decide
  rw [left] at entries
  exact ⟨t, chains, runs, entries, placed⟩

end Ircd.Hash
