import Ircd.Library.Runs
import Ircd.Text.Chattr
import Mathlib.Data.List.Basic
import Mathlib.Data.List.Count
import Mathlib.Logic.Function.Basic

/-! The links of connection classes: `class.c`, and `attach_conf` and `detach_conf` of `s_conf.c`.

Classes, configuration blocks and clients are pointers. The links of all clients are one list, the latest first; those
of one client are its `cli_confs`. Numbers do not overflow.
-/

set_option autoImplicit false

namespace Ircd.Conf
open Ircd.Library Ircd.Text

structure ConnectionClass where
  ccName : List Char
  maxLinks : Nat
  refCount : Nat
  valid : Bool
  deriving DecidableEq

inductive Kind where
  | client
  | operator
  | server
  deriving DecidableEq

/-- A block has a class, or it is a `CONF_UWORLD`, which has none. -/
inductive Block (κ : Type) where
  | classed (kind : Kind) (connClass : κ)
  | uworld
  deriving DecidableEq

structure ConfItem (κ : Type) where
  block : Block κ
  illegal : Bool
  clients : Nat
  deriving DecidableEq

inductive AuthorizationCheckResult where
  | ok
  | noAuthorization
  | tooManyInClass
  | tooManyFromIp
  | alreadyAuthorized
  | badSocket
  deriving DecidableEq

/-- A block that is not in `conf` is not allocated. -/
structure State (κ β χ : Type) where
  connClassList : List κ
  cls : κ → ConnectionClass
  conf : β → Option (ConfItem κ)
  links : List (χ × β)

def Block.connClass? {κ : Type} : Block κ → Option κ
  | .classed _ k => some k
  | .uworld => none

def Block.limit? {κ : Type} : Block κ → Option κ
  | .classed .client k => some k
  | .classed .operator k => some k
  | .classed .server _ => none
  | .uworld => none

def behindFirst {κ : Type} (fresh : κ) : List κ → List κ
  | [] => []
  | d :: l => d :: fresh :: l

theorem limit_connClass {κ : Type} {block : Block κ} {k : κ} (limited : block.limit? = some k) :
    block.connClass? = some k := by
  cases block with
  | classed kind k' =>
    cases kind with
    | client => exact limited
    | operator => exact limited
    | server => cases limited
  | uworld => cases limited

variable {κ β χ : Type} [DecidableEq κ] [DecidableEq β] [DecidableEq χ]

namespace State

def setClass (s : State κ β χ) (k : κ) (c : ConnectionClass) : State κ β χ :=
  { s with cls := Function.update s.cls k c }

def setConf (s : State κ β χ) (b : β) (x : Option (ConfItem κ)) : State κ β χ :=
  { s with conf := Function.update s.conf b x }

omit [DecidableEq β] [DecidableEq χ] in
@[simp] theorem setClass_self (s : State κ β χ) (k : κ) (c : ConnectionClass) : (s.setClass k c).cls k = c :=
  Function.update_self ..

omit [DecidableEq β] [DecidableEq χ] in
theorem setClass_of_ne (s : State κ β χ) {k k' : κ} (other : k' ≠ k) (c : ConnectionClass) :
    (s.setClass k c).cls k' = s.cls k' :=
  Function.update_of_ne other _ _

omit [DecidableEq κ] [DecidableEq χ] in
@[simp] theorem setConf_self (s : State κ β χ) (b : β) (x : Option (ConfItem κ)) : (s.setConf b x).conf b = x :=
  Function.update_self ..

omit [DecidableEq κ] [DecidableEq χ] in
theorem setConf_of_ne (s : State κ β χ) {b b' : β} (other : b' ≠ b) (x : Option (ConfItem κ)) :
    (s.setConf b x).conf b' = s.conf b' :=
  Function.update_of_ne other _ _

/-- `init_class`; the list is empty for the first call, and only then is a new class, `fresh`, taken. -/
def initClass (s : State κ β χ) (fresh : κ) (maximumLinks : Nat) : State κ β χ :=
  let d := s.connClassList.head?.getD fresh
  { s with connClassList := d :: s.connClassList.tail }.setClass d
    { s.cls d with ccName := "default".toList, maxLinks := maximumLinks, valid := true, refCount := 1 }

/-- `class_mark_delete`; the first class is not marked. -/
def classMarkDelete (s : State κ β χ) : State κ β χ :=
  { s with cls := fun k => if k ∈ s.connClassList.tail then { s.cls k with valid := false } else s.cls k }

def findClass (s : State κ β χ) (name : List Char) (extras : Bool) : Option κ :=
  s.connClassList.find? fun k => ((s.cls k).valid || extras) && ircdStrcmp (s.cls k).ccName name = 0

/-- `make_class` puts a class behind the first one, if there is one. -/
def makeClass (s : State κ β χ) (fresh : κ) : State κ β χ :=
  { s with connClassList := behindFirst fresh s.connClassList }.setClass fresh ⟨[], 0, 1, false⟩

/-- `add_class`; `fresh` is taken for a new class. -/
def addClass (s : State κ β χ) (fresh : κ) (name : List Char) (maxli : Nat) : State κ β χ :=
  let k := (s.findClass name true).getD fresh
  let s := if (s.findClass name true).isNone then s.makeClass fresh else s
  s.setClass k { s.cls k with ccName := name, maxLinks := maxli, valid := true }

def classDeleteMarked (s : State κ β χ) : State κ β χ :=
  { s with connClassList := s.connClassList.filter fun k => (s.cls k).valid || 1 < (s.cls k).refCount }

def makeConf (s : State κ β χ) (b : β) (kind : Kind) (name : List Char) : State κ β χ :=
  (s.findClass name false).elim s fun k => s.setConf b (some ⟨.classed kind k, false, 0⟩)

def makeUworld (s : State κ β χ) (b : β) : State κ β χ := s.setConf b (some ⟨.uworld, false, 0⟩)

def markIllegal (s : State κ β χ) (b : β) : State κ β χ :=
  s.setConf b ((s.conf b).map fun x => { x with illegal := true })

def freeConf (s : State κ β χ) (b : β) : State κ β χ := s.setConf b none

/-- `ConfLinks(aconf)++`, for the blocks that have a class. -/
def addLink (s : State κ β χ) (x : ConfItem κ) : State κ β χ :=
  x.block.connClass?.elim s fun k => s.setClass k { s.cls k with refCount := (s.cls k).refCount + 1 }

def dropLink (s : State κ β χ) (x : ConfItem κ) : State κ β χ :=
  x.block.connClass?.elim s fun k =>
    if 0 < (s.cls k).refCount then s.setClass k { s.cls k with refCount := (s.cls k).refCount - 1 } else s

def tooMany (s : State κ β χ) (x : ConfItem κ) : Bool :=
  x.block.limit?.any fun k => decide ((s.cls k).refCount ≥ (s.cls k).maxLinks ∧ (s.cls k).maxLinks > 0)

def attachConf (s : State κ β χ) (c : χ) (b : β) (x : ConfItem κ) : State κ β χ × AuthorizationCheckResult :=
  if (c, b) ∈ s.links then (s, .alreadyAuthorized)
  else if x.illegal then (s, .noAuthorization)
  else if s.tooMany x then (s, .tooManyInClass)
  else
    let s := { s with links := (c, b) :: s.links }
    ((s.setConf b (some { x with clients := x.clients + 1 })).addLink x, .ok)

def detachConf (s : State κ β χ) (c : χ) (b : β) (x : ConfItem κ) : State κ β χ :=
  if (c, b) ∈ s.links then
    let s := s.dropLink x
    let x := { x with clients := x.clients - 1 }
    let s := if x.clients = 0 && x.illegal then s.freeConf b else s.setConf b (some x)
    { s with links := s.links.erase (c, b) }
  else s

end State

/-- The feature callback and the steps of a rehash, blocks that come and go, and clients that get and lose them. -/
inductive Call (κ β χ : Type) where
  | initClass (fresh : κ) (maximumLinks : Nat)
  | classMarkDelete
  | addClass (fresh : κ) (name : List Char) (maxli : Nat)
  | classDeleteMarked
  | makeConf (b : β) (kind : Kind) (name : List Char)
  | makeUworld (b : β)
  | markIllegal (b : β)
  | freeConf (b : β)
  | attachConf (c : χ) (b : β)
  | detachConf (c : χ) (b : β)

def State.perform (s : State κ β χ) : Call κ β χ → State κ β χ
  | .initClass fresh maximumLinks => s.initClass fresh maximumLinks
  | .classMarkDelete => s.classMarkDelete
  | .addClass fresh name maxli => s.addClass fresh name maxli
  | .classDeleteMarked => s.classDeleteMarked
  | .makeConf b kind name => s.makeConf b kind name
  | .makeUworld b => s.makeUworld b
  | .markIllegal b => s.markIllegal b
  | .freeConf b => s.freeConf b
  | .attachConf c b => (s.conf b).elim s fun x => (s.attachConf c b x).1
  | .detachConf c b => (s.conf b).elim s fun x => s.detachConf c b x

/-- What the callers see to: new memory is not in use, a block that is freed has no clients, and a block that is
attached is allocated, as its class is. -/
def Allowed (s : State κ β χ) : Call κ β χ → Prop
  | .addClass fresh _ _ => fresh ∉ s.connClassList
  | .makeConf b _ _ => s.conf b = none
  | .makeUworld b => s.conf b = none
  | .freeConf b => ∀ x ∈ s.conf b, x.clients = 0
  | .attachConf _ b => ∃ x ∈ s.conf b, ∀ k ∈ x.block.connClass?, k ∈ s.connClassList
  | _ => True

def classOf (s : State κ β χ) (b : β) : Option κ := (s.conf b).bind fun x => x.block.connClass?

def attached (s : State κ β χ) (k : κ) : Nat := s.links.countP fun link => classOf s link.2 = some k

def Counted (s : State κ β χ) : Prop := ∀ k ∈ s.connClassList, (s.cls k).refCount = attached s k + 1

def Full (s : State κ β χ) (k : κ) : Prop := 0 < (s.cls k).maxLinks ∧ (s.cls k).maxLinks ≤ attached s k

/-- The answer of `attach_conf` is right, and what `class_delete_marked` frees has no attachments. -/
def Right (s : State κ β χ) : Call κ β χ → Prop
  | .attachConf c b => ∀ x ∈ s.conf b, ∀ k ∈ x.block.limit?,
      ((s.attachConf c b x).2 = .tooManyInClass ↔ Full s k)
  | .classDeleteMarked => ∀ k ∈ s.connClassList, k ∉ s.classDeleteMarked.connClassList → attached s k = 0
  | _ => True

/-- The step does the right thing, and the accounts are right behind it. -/
def Accounts (s : State κ β χ) (call : Call κ β χ) : Prop := Right s call ∧ Counted (s.perform call)

/-- The default class has no attachments when it is initialised again. The class of a client or operator block is not
one attachment short of its limit; where the block is not tried at all, the class is not full. -/
def Safe (s : State κ β χ) : Call κ β χ → Prop
  | .initClass _ _ => ∀ d ∈ s.connClassList.head?, attached s d = 0
  | .attachConf c b => ∀ x ∈ s.conf b, ∀ k ∈ x.block.limit?,
      if (c, b) ∈ s.links ∨ x.illegal = true then ¬ Full s k else (s.cls k).maxLinks ≠ attached s k + 1
  | _ => True

structure Started (s : State κ β χ) : Prop where
  classes : s.connClassList = []
  confs : ∀ b, s.conf b = none
  links : s.links = []

open State

structure Sound (s : State κ β χ) : Prop where
  distinct : s.connClassList.Nodup
  valid : ∀ d ∈ s.connClassList.head?, (s.cls d).valid = true
  clients : ∀ b x, s.conf b = some x → x.clients = s.links.countP fun link => link.2 = b
  here : ∀ link ∈ s.links, ∃ x, s.conf link.2 = some x ∧ ∀ k ∈ x.block.connClass?, k ∈ s.connClassList

variable {s : State κ β χ}

omit [DecidableEq κ] [DecidableEq β] [DecidableEq χ] in
theorem classOf_eq {b : β} {x : ConfItem κ} (allocated : s.conf b = some x) :
    classOf s b = x.block.connClass? := by
  rw [classOf, allocated, Option.bind_some]

variable {s' : State κ β χ}

omit [DecidableEq β] [DecidableEq χ] in
theorem attached_congr (links : s'.links = s.links)
    (same : ∀ link ∈ s.links, classOf s' link.2 = classOf s link.2) {k : κ} : attached s' k = attached s k := by
  unfold attached
  rw [links]
  refine List.countP_congr fun link mem => ?_
  rw [same link mem]

omit [DecidableEq β] [DecidableEq χ] in
@[simp] theorem attached_setClass (s : State κ β χ) (k k' : κ) (c : ConnectionClass) :
    attached (s.setClass k c) k' = attached s k' := rfl

omit [DecidableEq κ] [DecidableEq χ] in
theorem Sound.class_mem (sound : Sound s) {link : χ × β} (mem : link ∈ s.links) {k : κ}
    (of_class : classOf s link.2 = some k) : k ∈ s.connClassList := by
  obtain ⟨x, allocated, classes⟩ := sound.here link mem
  rw [classOf, allocated] at of_class
  exact classes k of_class

omit [DecidableEq χ] in
theorem Sound.attached_off (sound : Sound s) {k : κ} (off : k ∉ s.connClassList) :
    attached s k = 0 := by
  refine List.countP_eq_zero.mpr fun link mem of_class => ?_
  exact off (sound.class_mem mem (of_decide_eq_true of_class))

omit [DecidableEq β] [DecidableEq χ] in
theorem attached_pos {link : χ × β} (mem : link ∈ s.links) {k : κ} (of_class : classOf s link.2 = some k) :
    0 < attached s k :=
  List.countP_pos_iff.mpr ⟨link, mem, decide_eq_true of_class⟩

omit [DecidableEq κ] [DecidableEq χ] in
theorem Sound.unattached (sound : Sound s) {b : β} (none_of : ∀ x ∈ s.conf b, x.clients = 0) {link : χ × β}
    (mem : link ∈ s.links) : link.2 ≠ b := by
  intro same
  obtain ⟨x, allocated, -⟩ := sound.here link mem
  rw [same] at allocated
  have zero := sound.clients b x allocated
  rw [none_of x allocated] at zero
  exact List.countP_eq_zero.mp zero.symm link mem (decide_eq_true same)

omit [DecidableEq β] [DecidableEq χ] in
/-- A step that leaves the list, the links and the blocks alone, and the references of the classes. -/
theorem steady (counted : Counted s) (list : s'.connClassList = s.connClassList)
    (refs : ∀ k, (s'.cls k).refCount = (s.cls k).refCount) (same : ∀ k, attached s' k = attached s k) :
    Counted s' := by
  intro k mem
  rw [list] at mem
  rw [refs, same, counted k mem]

omit [DecidableEq χ] in
theorem Sound.reclass (sound : Sound s) (counted : Counted s) (list : s'.connClassList = s.connClassList)
    (conf : s'.conf = s.conf) (links : s'.links = s.links) (cls : ∀ k, (s'.cls k).refCount = (s.cls k).refCount ∧
      (k ∈ s.connClassList.head? → (s.cls k).valid = true → (s'.cls k).valid = true)) : Sound s' ∧ Counted s' := by
  have same (k : κ) : attached s' k = attached s k := by
    refine attached_congr links fun link _ => ?_
    rw [classOf, classOf, conf]
  refine ⟨⟨?_, ?_, ?_, ?_⟩, steady counted list (fun k => (cls k).1) same⟩
  · rw [list]
    exact sound.distinct
  · rw [list]
    exact fun d first => (cls d).2 first (sound.valid d first)
  · rw [conf, links]
    exact sound.clients
  · rw [conf, links, list]
    exact sound.here

omit [DecidableEq χ] in
theorem Sound.setConf (sound : Sound s) {b : β} (none_of : ∀ x ∈ s.conf b, x.clients = 0)
    {x : Option (ConfItem κ)} (unused : ∀ y ∈ x, y.clients = 0) :
    Sound (s.setConf b x) ∧ ∀ k, attached (s.setConf b x) k = attached s k := by
  have apart {link : χ × β} (mem : link ∈ s.links) : (s.setConf b x).conf link.2 = s.conf link.2 :=
    setConf_of_ne s (sound.unattached none_of mem) x
  refine ⟨⟨sound.distinct, sound.valid, fun b' y there => ?_, fun link mem => ?_⟩, fun k => ?_⟩
  · by_cases here : b' = b
    · rw [here, setConf_self] at there
      rw [here, unused y there]
      refine (List.countP_eq_zero.mpr fun link mem at_b => ?_).symm
      exact sound.unattached none_of mem (of_decide_eq_true at_b)
    · rw [setConf_of_ne s here] at there
      exact sound.clients b' y there
  · rw [apart mem]
    exact sound.here link mem
  · have same : ∀ link ∈ s.links, classOf (s.setConf b x) link.2 = classOf s link.2 := by
      intro link mem
      rw [classOf, classOf, apart mem]
    exact attached_congr (show (s.setConf b x).links = s.links from rfl) same

/-- The step lemma: `Safe` says when a step keeps the accounts. -/
def Keeps (s : State κ β χ) (call : Call κ β χ) : Prop := (Accounts s call ↔ Safe s call) ∧ Sound (s.perform call)

theorem makeConf_keeps (sound : Sound s) (counted : Counted s) {b : β} {kind : Kind} {name : List Char}
    (allowed : Allowed s (.makeConf b kind name)) : Keeps s (.makeConf b kind name) := by
  have none_of : ∀ x ∈ s.conf b, x.clients = 0 := by
    intro x there
    rw [show s.conf b = none from allowed] at there
    cases there
  have steps : Sound (s.makeConf b kind name) ∧ Counted (s.makeConf b kind name) := by
    unfold makeConf
    cases s.findClass name false with
    | none => exact ⟨sound, counted⟩
    | some k =>
      have made := sound.setConf none_of (x := some ⟨.classed kind k, false, 0⟩) (by simp)
      exact ⟨made.1, steady counted rfl (fun _ => rfl) made.2⟩
  exact ⟨iff_of_true ⟨trivial, steps.2⟩ trivial, steps.1⟩

theorem makeUworld_keeps (sound : Sound s) (counted : Counted s) {b : β} (allowed : Allowed s (.makeUworld b)) :
    Keeps s (.makeUworld b) := by
  have none_of : ∀ x ∈ s.conf b, x.clients = 0 := by
    intro x there
    rw [show s.conf b = none from allowed] at there
    cases there
  have made := sound.setConf none_of (x := some ⟨.uworld, false, 0⟩) (by simp)
  exact ⟨iff_of_true ⟨trivial, steady counted rfl (fun _ => rfl) made.2⟩ trivial, made.1⟩

theorem freeConf_keeps (sound : Sound s) (counted : Counted s) {b : β} (allowed : Allowed s (.freeConf b)) :
    Keeps s (.freeConf b) := by
  have freed := sound.setConf allowed (x := none) (by simp)
  exact ⟨iff_of_true ⟨trivial, steady counted rfl (fun _ => rfl) freed.2⟩ trivial, freed.1⟩

theorem markIllegal_keeps (sound : Sound s) (counted : Counted s) (b : β) :
    Keeps s (.markIllegal b) := by
  have conf (b' : β) : ∃ f : ConfItem κ → ConfItem κ, (s.markIllegal b).conf b' = (s.conf b').map f ∧
      ∀ x, (f x).block = x.block ∧ (f x).clients = x.clients := by
    unfold markIllegal
    by_cases here : b' = b
    · rw [here, setConf_self]
      exact ⟨_, rfl, fun _ => ⟨rfl, rfl⟩⟩
    · rw [setConf_of_ne s here]
      exact ⟨id, Option.map_id'.symm, fun _ => ⟨rfl, rfl⟩⟩
  have same (link : χ × β) : classOf (s.markIllegal b) link.2 = classOf s link.2 := by
    obtain ⟨f, set, kept⟩ := conf link.2
    unfold classOf
    rw [set]
    cases s.conf link.2 with
    | none => rfl
    | some x => exact congrArg Block.connClass? (kept x).1
  have counted' : Counted (s.markIllegal b) :=
    steady counted rfl (fun _ => rfl) fun _ =>
      attached_congr (show (s.markIllegal b).links = s.links from rfl) fun link _ => same link
  refine ⟨iff_of_true ⟨trivial, counted'⟩ trivial, sound.distinct, sound.valid, fun b' y there => ?_,
    fun link mem => ?_⟩
  · obtain ⟨f, set, kept⟩ := conf b'
    rw [show (s.perform (.markIllegal b)).conf b' = _ from set] at there
    obtain ⟨x, allocated, rfl⟩ := Option.map_eq_some_iff.mp there
    rw [(kept x).2]
    exact sound.clients b' x allocated
  · obtain ⟨x, allocated, classes⟩ := sound.here link mem
    obtain ⟨f, set, kept⟩ := conf link.2
    refine ⟨f x, ?_, by rw [(kept x).1]; exact classes⟩
    rw [show (s.perform (.markIllegal b)).conf link.2 = _ from set, allocated]
    rfl

theorem initClass_keeps (sound : Sound s) (counted : Counted s) (fresh : κ) (maximumLinks : Nat) :
    Keeps s (.initClass fresh maximumLinks) := by
  have list : (s.initClass fresh maximumLinks).connClassList =
      s.connClassList.head?.getD fresh :: s.connClassList.tail := rfl
  have first : ((s.initClass fresh maximumLinks).cls (s.connClassList.head?.getD fresh)).refCount = 1 ∧
      ((s.initClass fresh maximumLinks).cls (s.connClassList.head?.getD fresh)).valid = true := by
    unfold initClass
    simp only [setClass_self, and_self]
  have others (k : κ) (other : k ≠ s.connClassList.head?.getD fresh) :
      (s.initClass fresh maximumLinks).cls k = s.cls k := setClass_of_ne _ other _
  have same (k : κ) : attached (s.initClass fresh maximumLinks) k = attached s k := rfl
  obtain ⟨cells, nodup, sub⟩ : (s.connClassList = [] ∨ ∃ d, s.connClassList = d :: s.connClassList.tail) ∧
      (s.initClass fresh maximumLinks).connClassList.Nodup ∧
        s.connClassList ⊆ (s.initClass fresh maximumLinks).connClassList := by
    have distinct := sound.distinct
    rw [list]
    revert distinct
    cases s.connClassList with
    | nil => exact fun _ => ⟨.inl rfl, by simp, List.nil_subset _⟩
    | cons d l => exact fun distinct => ⟨.inr ⟨d, rfl⟩, distinct, fun _ mem => mem⟩
  have counted_iff : Counted (s.initClass fresh maximumLinks) ↔ ∀ d ∈ s.connClassList.head?, attached s d = 0 := by
    have behind : ∀ k ∈ s.connClassList.tail,
        ((s.initClass fresh maximumLinks).cls k).refCount = attached (s.initClass fresh maximumLinks) k + 1 := by
      intro k mem
      rw [list] at nodup
      rw [others k fun here => (List.nodup_cons.mp nodup).1 (here ▸ mem), same]
      exact counted k (List.mem_of_mem_tail mem)
    unfold Counted
    rw [list, List.forall_mem_cons, and_iff_left behind, first.1, same]
    rcases cells with empty | ⟨d, cons⟩
    · -- The new class has no attachments.
      have off : attached s fresh = 0 := sound.attached_off (by rw [empty]; exact List.not_mem_nil)
      simp [empty, off]
    · rw [cons]
      simp [eq_comm]
  refine ⟨(and_iff_right trivial).trans counted_iff, nodup, ?_, sound.clients, fun link mem => ?_⟩
  · rintro d ⟨⟩
    exact first.2
  · obtain ⟨x, allocated, classes⟩ := sound.here link mem
    exact ⟨x, allocated, fun k of_block => sub (classes k of_block)⟩

theorem classMarkDelete_keeps (sound : Sound s) (counted : Counted s) :
    Keeps s .classMarkDelete := by
  have steps : Sound s.classMarkDelete ∧ Counted s.classMarkDelete := by
    refine sound.reclass counted rfl rfl rfl fun k => ?_
    unfold classMarkDelete
    simp only
    split
    · rename_i behind
      refine ⟨rfl, fun first => ?_⟩
      have distinct := sound.distinct
      rw [← List.cons_head?_tail first] at distinct
      exact absurd behind (List.nodup_cons.mp distinct).1
    · exact ⟨rfl, fun _ => id⟩
  exact ⟨iff_of_true ⟨trivial, steps.2⟩ trivial, steps.1⟩

omit [DecidableEq κ] in
theorem mem_behindFirst {fresh k : κ} {l : List κ} (mem : k ∈ behindFirst fresh l) : k = fresh ∨ k ∈ l := by
  cases l with
  | nil => cases mem
  | cons d l =>
    rcases List.mem_cons.mp mem with here | later
    · exact .inr (here ▸ List.mem_cons_self)
    · exact (List.mem_cons.mp later).imp_right (List.mem_cons_of_mem d)

omit [DecidableEq κ] in
theorem behindFirst_nodup {fresh : κ} {l : List κ} (distinct : l.Nodup) (new : fresh ∉ l) :
    (behindFirst fresh l).Nodup := by
  cases l with
  | nil => exact List.nodup_nil
  | cons d l =>
    rw [List.mem_cons, not_or] at new
    obtain ⟨d_fresh, distinct⟩ := List.nodup_cons.mp distinct
    refine List.nodup_cons.mpr ⟨?_, List.nodup_cons.mpr ⟨new.2, distinct⟩⟩
    rw [List.mem_cons, not_or]
    exact ⟨Ne.symm new.1, d_fresh⟩

omit [DecidableEq κ] in
theorem subset_behindFirst (fresh : κ) (l : List κ) : l ⊆ behindFirst fresh l := by
  cases l with
  | nil => exact List.nil_subset _
  | cons d l => exact List.cons_subset_cons d (List.subset_cons_self fresh l)

omit [DecidableEq κ] in
theorem head?_behindFirst (fresh : κ) (l : List κ) : (behindFirst fresh l).head? = l.head? := by
  cases l with
  | nil => rfl
  | cons d l => rfl

omit [DecidableEq χ] in
theorem Sound.makeClass (sound : Sound s) (counted : Counted s) {fresh : κ} (new : fresh ∉ s.connClassList)
    {c : ConnectionClass} (one : c.refCount = 1) :
    Sound ((s.makeClass fresh).setClass fresh c) ∧ Counted ((s.makeClass fresh).setClass fresh c) := by
  have others (k : κ) (other : k ≠ fresh) : ((s.makeClass fresh).setClass fresh c).cls k = s.cls k :=
    (setClass_of_ne _ other _).trans (setClass_of_ne _ other _)
  have list : ((s.makeClass fresh).setClass fresh c).connClassList = behindFirst fresh s.connClassList := rfl
  have same (k : κ) : attached ((s.makeClass fresh).setClass fresh c) k = attached s k := rfl
  refine ⟨⟨behindFirst_nodup sound.distinct new, fun d first => ?_, sound.clients, fun link mem => ?_⟩, fun k mem => ?_⟩
  · rw [list, head?_behindFirst] at first
    rw [others d fun here => new (here ▸ List.mem_of_mem_head? first)]
    exact sound.valid d first
  · obtain ⟨x, allocated, classes⟩ := sound.here link mem
    exact ⟨x, allocated, fun k of_block => subset_behindFirst fresh _ (classes k of_block)⟩
  · rw [same]
    by_cases here : k = fresh
    · rw [here, setClass_self, one, sound.attached_off new]
    · rw [others k here]
      exact counted k ((mem_behindFirst mem).resolve_left here)

theorem addClass_keeps (sound : Sound s) (counted : Counted s) {fresh : κ} {name : List Char} {maxli : Nat}
    (allowed : Allowed s (.addClass fresh name maxli)) : Keeps s (.addClass fresh name maxli) := by
  have steps : Sound (s.addClass fresh name maxli) ∧ Counted (s.addClass fresh name maxli) := by
    unfold addClass
    cases s.findClass name true with
    | some k =>
      rw [Option.getD_some, if_neg (by simp)]
      refine sound.reclass counted rfl rfl rfl fun k' => ?_
      by_cases here : k' = k
      · rw [here, setClass_self]
        exact ⟨rfl, fun _ _ => rfl⟩
      · rw [setClass_of_ne s here]
        exact ⟨rfl, fun _ => id⟩
    | none =>
      rw [Option.getD_none, if_pos Option.isNone_none]
      exact sound.makeClass counted allowed (congrArg ConnectionClass.refCount (setClass_self ..))
  exact ⟨iff_of_true ⟨trivial, steps.2⟩ trivial, steps.1⟩

theorem classDeleteMarked_keeps (sound : Sound s) (counted : Counted s) :
    Keeps s .classDeleteMarked := by
  have kept {k : κ} (mem : k ∈ s.connClassList) (used : 0 < attached s k) : k ∈ s.classDeleteMarked.connClassList := by
    refine List.mem_filter.mpr ⟨mem, ?_⟩
    have refs := counted k mem
    simp only [Bool.or_eq_true, decide_eq_true_eq]
    exact .inr (by omega)
  have right : Right s .classDeleteMarked := by
    intro k mem gone
    by_contra some_attached
    exact gone (kept mem (Nat.pos_of_ne_zero some_attached))
  have counted' : Counted s.classDeleteMarked := fun k mem => counted k (List.mem_filter.mp mem).1
  refine ⟨iff_of_true ⟨right, counted'⟩ trivial, sound.distinct.filter _, ?_, sound.clients, fun link mem => ?_⟩
  · intro d first
    change d ∈ (s.connClassList.filter _).head? at first
    cases list : s.connClassList with
    | nil =>
      rw [list] at first
      cases first
    | cons d' l =>
      have valid := sound.valid d' (by rw [list]; rfl)
      rw [list, List.filter_cons_of_pos (by rw [valid, Bool.true_or]), List.head?_cons] at first
      rw [← Option.some.inj first]
      exact valid
  · obtain ⟨x, allocated, classes⟩ := sound.here link mem
    have used {k : κ} (of_block : k ∈ x.block.connClass?) : 0 < attached s k :=
      attached_pos mem ((classOf_eq allocated).trans of_block)
    exact ⟨x, allocated, fun k of_block => kept (classes k of_block) (used of_block)⟩

omit [DecidableEq β] [DecidableEq χ] in
theorem addLink_spec (s : State κ β χ) (x : ConfItem κ) :
    (s.addLink x).connClassList = s.connClassList ∧ (s.addLink x).conf = s.conf ∧ (s.addLink x).links = s.links ∧
      ∀ k, ((s.addLink x).cls k).valid = (s.cls k).valid ∧
        ((s.addLink x).cls k).refCount = (s.cls k).refCount + if x.block.connClass? = some k then 1 else 0 := by
  unfold addLink
  cases of_block : x.block.connClass? with
  | none => exact ⟨rfl, rfl, rfl, fun k => ⟨rfl, rfl⟩⟩
  | some k' =>
    refine ⟨rfl, rfl, rfl, fun k => ?_⟩
    rw [Option.elim_some]
    by_cases here : k = k'
    · rw [here, setClass_self, if_pos rfl]
      exact ⟨rfl, rfl⟩
    · rw [setClass_of_ne s here, if_neg fun same => here (Option.some.inj same).symm]
      exact ⟨rfl, rfl⟩

omit [DecidableEq β] [DecidableEq χ] in
theorem dropLink_spec (s : State κ β χ) (x : ConfItem κ) :
    (s.dropLink x).connClassList = s.connClassList ∧ (s.dropLink x).conf = s.conf ∧ (s.dropLink x).links = s.links ∧
      ∀ k, ((s.dropLink x).cls k).valid = (s.cls k).valid ∧
        ((s.dropLink x).cls k).refCount = (s.cls k).refCount - if x.block.connClass? = some k then 1 else 0 := by
  unfold dropLink
  cases of_block : x.block.connClass? with
  | none => exact ⟨rfl, rfl, rfl, fun k => ⟨rfl, rfl⟩⟩
  | some k' =>
    rw [Option.elim_some]
    split
    · refine ⟨rfl, rfl, rfl, fun k => ?_⟩
      by_cases here : k = k'
      · rw [here, setClass_self, if_pos rfl]
        exact ⟨rfl, rfl⟩
      · rw [setClass_of_ne s here, if_neg fun same => here (Option.some.inj same).symm]
        exact ⟨rfl, rfl⟩
    · rename_i zero
      refine ⟨rfl, rfl, rfl, fun k => ⟨rfl, ?_⟩⟩
      split
      · rename_i same
        rw [← Option.some.inj same]
        omega
      · rfl

omit [DecidableEq χ] in
theorem Sound.attach (sound : Sound s) (counted : Counted s) {c : χ} {b : β} {x : ConfItem κ}
    (allocated : s.conf b = some x) (classes : ∀ k ∈ x.block.connClass?, k ∈ s.connClassList)
    (list : s'.connClassList = s.connClassList) (links : s'.links = (c, b) :: s.links)
    (here : s'.conf b = some { x with clients := x.clients + 1 }) (others : ∀ b', b' ≠ b → s'.conf b' = s.conf b') (cls : ∀ k, (s'.cls k).valid = (s.cls k).valid ∧
      (s'.cls k).refCount = (s.cls k).refCount + if x.block.connClass? = some k then 1 else 0) :
    Sound s' ∧ Counted s' := by
  have same (b' : β) : classOf s' b' = classOf s b' := by
    by_cases at_b : b' = b
    · rw [at_b, classOf_eq here, classOf_eq allocated]
    · rw [classOf, classOf, others b' at_b]
  refine ⟨⟨?_, fun d first => ?_, fun b' y there => ?_, fun link mem => ?_⟩, fun k mem => ?_⟩
  · rw [list]
    exact sound.distinct
  · rw [list] at first
    rw [(cls d).1]
    exact sound.valid d first
  · rw [links, List.countP_cons]
    by_cases at_b : b' = b
    · rw [at_b, here] at there
      rw [← Option.some.inj there, at_b]
      simp [sound.clients b x allocated]
    · rw [others b' at_b] at there
      rw [sound.clients b' y there]
      simp [Ne.symm at_b]
  · rw [list]
    rw [links] at mem
    by_cases at_b : link.2 = b
    · rw [at_b]
      exact ⟨_, here, classes⟩
    · have later : link ∈ s.links := (List.mem_cons.mp mem).resolve_left fun first => at_b (congrArg Prod.snd first)
      rw [others link.2 at_b]
      exact sound.here link later
  · rw [list] at mem
    have grown : attached s' k = attached s k + if x.block.connClass? = some k then 1 else 0 := by
      unfold attached
      simp only [links, List.countP_cons, same, classOf_eq allocated, decide_eq_true_eq]
    rw [(cls k).2, counted k mem, grown]
    omega

theorem attachConf_keeps (sound : Sound s) (counted : Counted s) {c : χ} {b : β}
    (allowed : Allowed s (.attachConf c b)) : Keeps s (.attachConf c b) := by
  obtain ⟨x, allocated, classes⟩ := allowed
  have steps : Sound (s.attachConf c b x).1 ∧ Counted (s.attachConf c b x).1 := by
    unfold attachConf
    split
    · exact ⟨sound, counted⟩
    · split
      · exact ⟨sound, counted⟩
      · split
        · exact ⟨sound, counted⟩
        · obtain ⟨list, conf, links, cls⟩ :=
            addLink_spec ({ s with links := (c, b) :: s.links }.setConf b (some { x with clients := x.clients + 1 })) x
          refine sound.attach counted allocated classes list links ?_ (fun b' other => ?_) cls
          · exact (congrFun conf b).trans (setConf_self ..)
          · exact (congrFun conf b').trans (setConf_of_ne _ other _)
  have performed : s.perform (.attachConf c b) = (s.attachConf c b x).1 := congrArg (Option.elim · s _) allocated
  have right_iff : Right s (.attachConf c b) ↔ Safe s (.attachConf c b) := by
    unfold Right Safe
    refine forall₄_congr fun y there k limited => ?_
    obtain rfl : x = y := Option.some.inj (allocated.symm.trans there)
    have on_list : k ∈ s.connClassList := classes k (limit_connClass limited)
    have refs := counted k on_list
    have full : s.tooMany x = true ↔ 0 < (s.cls k).maxLinks ∧ (s.cls k).maxLinks ≤ attached s k + 1 := by
      rw [tooMany, limited, Option.any_some, decide_eq_true_iff, refs, and_comm]
    unfold attachConf Full
    by_cases linked : (c, b) ∈ s.links
    · simp [linked]
    · by_cases illegal : x.illegal = true
      · simp [linked, illegal]
      · by_cases many : s.tooMany x = true
        · have bound := full.mp many
          simp only [linked, illegal, many, if_true, if_false, or_self, Bool.false_eq_true, true_iff]
          omega
        · have free := mt full.mpr many
          simp only [linked, illegal, many, if_false, or_self, Bool.false_eq_true, reduceCtorEq, false_iff]
          omega
  unfold Keeps Accounts
  rw [performed, and_iff_left steps.2]
  exact ⟨right_iff, steps.1⟩

theorem Sound.detach (sound : Sound s) (counted : Counted s) {c : χ} {b : β} {x : ConfItem κ}
    (allocated : s.conf b = some x) (mem : (c, b) ∈ s.links) (list : s'.connClassList = s.connClassList)
    (links : s'.links = s.links.erase (c, b))
    (here : s'.conf b = some { x with clients := x.clients - 1 } ∨ s'.conf b = none ∧ x.clients - 1 = 0)
    (others : ∀ b', b' ≠ b → s'.conf b' = s.conf b') (cls : ∀ k, (s'.cls k).valid = (s.cls k).valid ∧
      (s'.cls k).refCount = (s.cls k).refCount - if x.block.connClass? = some k then 1 else 0) :
    Sound s' ∧ Counted s' := by
  have clients (b' : β) : (s'.links.countP fun link => link.2 = b') =
      (s.links.countP fun link => link.2 = b') - if b = b' then 1 else 0 := by
    rw [links, List.countP_erase]
    simp only [mem, true_and, decide_eq_true_eq]
  -- A block that is gone has no links left.
  have still {link : χ × β} (linked : link ∈ s'.links) : classOf s' link.2 = classOf s link.2 ∧
      ∃ y, s'.conf link.2 = some y := by
    by_cases at_b : link.2 = b
    · rw [at_b]
      rcases here with less | ⟨gone, last⟩
      · exact ⟨(classOf_eq less).trans (classOf_eq allocated).symm, _, less⟩
      · have none_left := clients b
        rw [if_pos rfl, ← sound.clients b x allocated, last] at none_left
        exact absurd (decide_eq_true at_b) (List.countP_eq_zero.mp none_left link linked)
    · obtain ⟨y, there, -⟩ := sound.here link (List.mem_of_mem_erase (links ▸ linked))
      rw [classOf, classOf, others link.2 at_b]
      exact ⟨rfl, y, there⟩
  refine ⟨⟨?_, fun d first => ?_, fun b' y there => ?_, fun link linked => ?_⟩, fun k on_list => ?_⟩
  · rw [list]
    exact sound.distinct
  · rw [list] at first
    rw [(cls d).1]
    exact sound.valid d first
  · rw [clients]
    by_cases at_b : b' = b
    · rw [at_b] at there ⊢
      rcases here with less | ⟨gone, -⟩
      · rw [less] at there
        rw [← Option.some.inj there, if_pos rfl, sound.clients b x allocated]
      · rw [gone] at there
        cases there
    · rw [others b' at_b] at there
      rw [if_neg (Ne.symm at_b), sound.clients b' y there, Nat.sub_zero]
  · obtain ⟨same, y, there⟩ := still linked
    refine ⟨y, there, fun k of_block => ?_⟩
    rw [list]
    rw [classOf_eq there] at same
    exact sound.class_mem (List.mem_of_mem_erase (links ▸ linked)) (same.symm.trans of_block)
  · rw [list] at on_list
    have shrunk : attached s' k = attached s k - if x.block.connClass? = some k then 1 else 0 := by
      have congr : attached s' k = s'.links.countP fun link => classOf s link.2 = some k := by
        refine List.countP_congr fun link linked => ?_
        rw [(still linked).1]
      rw [congr, links, List.countP_erase]
      simp only [mem, true_and, decide_eq_true_eq, classOf_eq allocated]
      rfl
    have some_attached (of_class : x.block.connClass? = some k) : 0 < attached s k :=
      attached_pos mem ((classOf_eq allocated).trans of_class)
    rw [(cls k).2, counted k on_list, shrunk]
    split
    · rename_i of_class
      have := some_attached of_class
      omega
    · rfl

theorem detachConf_keeps (sound : Sound s) (counted : Counted s) (c : χ) (b : β) :
    Keeps s (.detachConf c b) := by
  have steps : Sound (s.perform (.detachConf c b)) ∧ Counted (s.perform (.detachConf c b)) := by
    unfold perform
    simp only
    cases allocated : s.conf b with
    | none => exact ⟨sound, counted⟩
    | some x =>
      rw [Option.elim_some]
      unfold detachConf
      by_cases mem : (c, b) ∈ s.links
      · rw [if_pos mem]
        simp only
        obtain ⟨list, conf, links, cls⟩ := dropLink_spec s x
        split
        · rename_i last
          rw [Bool.and_eq_true, decide_eq_true_eq] at last
          refine sound.detach counted allocated mem list (congrArg (List.erase · (c, b)) links)
            (.inr ⟨setConf_self .., last.1⟩) (fun b' other => ?_) cls
          exact (setConf_of_ne _ other _).trans (congrFun conf b')
        · refine sound.detach counted allocated mem list (congrArg (List.erase · (c, b)) links)
            (.inl (setConf_self ..)) (fun b' other => ?_) cls
          exact (setConf_of_ne _ other _).trans (congrFun conf b')
      · rw [if_neg mem]
        exact ⟨sound, counted⟩
  exact ⟨iff_of_true ⟨trivial, steps.2⟩ trivial, steps.1⟩

theorem keeps (sound : Sound s) (counted : Counted s) {call : Call κ β χ} (allowed : Allowed s call) :
    Keeps s call := by
  cases call with
  | initClass fresh maximumLinks => exact initClass_keeps sound counted fresh maximumLinks
  | classMarkDelete => exact classMarkDelete_keeps sound counted
  | addClass fresh name maxli => exact addClass_keeps sound counted allowed
  | classDeleteMarked => exact classDeleteMarked_keeps sound counted
  | makeConf b kind name => exact makeConf_keeps sound counted allowed
  | makeUworld b => exact makeUworld_keeps sound counted allowed
  | markIllegal b => exact markIllegal_keeps sound counted b
  | freeConf b => exact freeConf_keeps sound counted allowed
  | attachConf c b => exact attachConf_keeps sound counted allowed
  | detachConf c b => exact detachConf_keeps sound counted c b

theorem along_iff (sound : Sound s) (counted : Counted s) {calls : List (Call κ β χ)}
    (allowed : Along perform Allowed s calls) : Along perform Accounts s calls ↔ Along perform Safe s calls := by
  refine Along.iff (fun s => Sound s ∧ Counted s) (fun s call inv allowed => ?_)
    (fun s call inv allowed accounts => ?_) ⟨sound, counted⟩ allowed
  · exact (keeps inv.1 inv.2 allowed).1
  · exact ⟨(keeps inv.1 inv.2 allowed).2, accounts.2⟩

omit [DecidableEq χ] in
theorem Started.sound (started : Started s) : Sound s ∧ Counted s := by
  refine ⟨⟨?_, fun d first => ?_, fun b x there => ?_, fun link mem => ?_⟩, fun k mem => ?_⟩
  · rw [started.classes]
    exact List.nodup_nil
  · rw [started.classes] at first
    cases first
  · rw [started.confs b] at there
    cases there
  · rw [started.links] at mem
    cases mem
  · rw [started.classes] at mem
    cases mem

/-- In every run, the references of all classes are right all the time, and so are all answers and whatever is freed,
just if every step of the run is safe. -/
theorem class_accounting {s : State κ β χ} (started : Started s) {calls : List (Call κ β χ)}
    (allowed : Along perform Allowed s calls) : Along perform Accounts s calls ↔ Along perform Safe s calls :=
  along_iff started.sound.1 started.sound.2 allowed

def nothing : State Nat Nat Nat := ⟨[], fun _ => ⟨[], 0, 0, false⟩, fun _ => none, []⟩

theorem nothing_started : Started nothing := ⟨rfl, fun _ => rfl, rfl⟩

def oneClient (maximumLinks : Nat) : List (Call Nat Nat Nat) :=
  [.initClass 0 maximumLinks, .makeConf 1 .client "default".toList, .attachConf 2 1]

theorem oneClient_allowed (maximumLinks : Nat) : Along perform Allowed nothing (oneClient maximumLinks) := by
  refine ⟨trivial, rfl, ⟨⟨.classed .client 0, false, 0⟩, rfl, ?_⟩, trivial⟩
  rintro k ⟨⟩
  exact List.mem_singleton.mpr rfl

theorem oneClient_accounting :
    Along perform Accounts nothing (oneClient 3) ↔ Along perform Safe nothing (oneClient 3) :=
  class_accounting nothing_started (oneClient_allowed 3)

/-- With a limit of one the first client is refused. With a higher one he is counted, until a feature is set. -/
theorem one_client_miscounted :
    Along perform Allowed nothing (oneClient 1) ∧ ¬ Along perform Accounts nothing (oneClient 1) ∧
      Along perform Accounts nothing (oneClient 3) ∧ Along perform Allowed nothing (oneClient 3 ++ [.initClass 0 3]) ∧
        ¬ Along perform Accounts nothing (oneClient 3 ++ [.initClass 0 3]) := by
  refine ⟨oneClient_allowed 1, ?_, ?_, ?_, ?_⟩
  · rintro ⟨-, -, ⟨answers, -⟩, -⟩
    have full := (answers ⟨.classed .client 0, false, 0⟩ rfl 0 rfl).mp rfl
    exact absurd full.2 (by decide)
  · obtain ⟨sound, counted⟩ := nothing_started.sound
    refine (along_iff sound counted (oneClient_allowed 3)).mpr ⟨?_, trivial, ?_, trivial⟩
    · rintro d ⟨⟩
    · rintro x ⟨⟩ k ⟨⟩
      rw [if_neg (by decide)]
      decide
  · exact ⟨trivial, rfl, (oneClient_allowed 3).2.2.1, trivial, trivial⟩
  · rintro ⟨-, -, -, ⟨-, counted⟩, -⟩
    have refs := counted 0 (List.mem_singleton.mpr rfl)
    exact absurd refs (by decide)

end Ircd.Conf
