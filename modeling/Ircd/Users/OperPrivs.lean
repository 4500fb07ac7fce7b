import Ircd.Users.NickRecords

/-! The privileges of a local operator: `client_set_privs`, with the operator block and the connection classes it
reads.

A block is what the parser has made of its lines. Where the assertion of the function fails there is no result.
-/

set_option autoImplicit false

namespace Ircd.Users

def privList : List Priv :=
  [.chanLimit, .modeLchan, .walkLchan, .deopLchan, .showInvis, .showAllInvis, .unlimitQuery, .kill, .localKill, .rehash,
    .restart, .die, .gline, .localGline, .jupe, .localJupe, .opmode, .localOpmode, .set, .whox, .badchan, .localBadchan,
    .seeChan, .propagate, .display, .seeOpers, .wideGline, .listChan, .forceOpmode, .forceLocalOpmode, .apassOpmode,
    .walkChan, .network, .chanserv, .hiddenViewer, .whoisNotice, .hideIdle, .dbq]

def flagHas (flags : Priv → Bool) (flag : Nat) : Bool := (privList[flag]?).elim false flags

theorem flagHas_ctorIdx (flags : Priv → Bool) (priv : Priv) : flagHas flags priv.ctorIdx = flags priv := by
  cases priv <;> rfl

/-- The number that `||` makes of a number and a truth value. -/
def orNumber (flag : Nat) (value : Bool) : Nat := if flag ≠ 0 || value then 1 else 0

/-- What a block says about privileges; those it says nothing about are not `dirty`. -/
structure PrivConf where
  privs : Priv → Bool
  dirty : Priv → Bool

def PrivConf.none : PrivConf := ⟨fun _ => false, fun _ => false⟩

/-- The action of the rule `priv`; `LOCAL` is PROPAGATE inverted. -/
def PrivConf.item (conf : PrivConf) (priv : Priv) (yes invert : Bool) : PrivConf :=
  ⟨Function.update conf.privs priv (yes != invert), Function.update conf.dirty priv true⟩

structure OperConf where
  block : PrivConf
  connClass : PrivConf
  propagate_set : block.dirty .propagate = true ∨ connClass.dirty .propagate = true

def operblock (block connClass : PrivConf) : Option OperConf :=
  if set : block.dirty .propagate = true ∨ connClass.dirty .propagate = true then some ⟨block, connClass, set⟩
  else Option.none

theorem OperConf.accepted (oper : OperConf) : operblock oper.block oper.connClass = some oper :=
  dif_pos oper.propagate_set

def notGlobal : List Priv := [.walkLchan, .unlimitQuery, .set, .badchan, .localBadchan, .apassOpmode]

def forLocal : List Priv :=
  [.chanLimit, .modeLchan, .showInvis, .showAllInvis, .localKill, .rehash, .localGline, .localJupe, .localOpmode, .whox,
    .display, .forceLocalOpmode]

/-- `privs_defaults_set`, `privs_global` and `privs_local`. -/
structure PrivDefaults where
  set : Bool
  privsGlobal : Priv → Bool
  privsLocal : Priv → Bool

def PrivDefaults.init (d : PrivDefaults) : PrivDefaults :=
  if d.set then d else ⟨true, fun priv => !notGlobal.contains priv, fun priv => forLocal.contains priv⟩

/-- The class that is considered; without an operator block it is the class `RemoteOpers`, if there is one. -/
def lookUpClass (oper : Option OperConf) (remoteOpers : Option PrivConf) : Option PrivConf :=
  match oper with
  | some oper => some oper.connClass
  | .none =>
    remoteOpers.filter fun c =>
      flagHas c.dirty (orNumber Priv.propagate.ctorIdx (!flagHas c.privs Priv.propagate.ctorIdx))

def PrivDefaults.choose (d : PrivDefaults) (oper : Option OperConf) (cls : Option PrivConf) : Option (Priv → Bool) :=
  if oper.any fun oper => oper.block.dirty .propagate then
    some (if oper.any fun oper => oper.block.privs .propagate then d.privsGlobal else d.privsLocal)
  else if cls.all fun c => c.dirty .propagate then
    some (if cls.all fun c => c.privs .propagate then d.privsGlobal else d.privsLocal)
  else Option.none

def privSource (oper : Option OperConf) (cls : Option PrivConf) (defaults : Priv → Bool) (priv : Priv) : Priv → Bool :=
  if oper.any fun oper => oper.block.dirty priv then oper.elim defaults fun oper => oper.block.privs
  else if cls.any fun c => c.dirty priv then cls.elim defaults fun c => c.privs
  else defaults

def takePrivs (source : Priv → Priv → Bool) : Priv → Bool :=
  privList.foldl (fun privs priv => if source priv priv then Function.update privs priv true else privs) fun _ => false

structure OperClient where
  myConnect : Bool
  isAnOper : Bool
  privs : Priv → Bool

def clientSetPrivs (d : PrivDefaults) (client : OperClient) (oper : Option OperConf) (forceOper : Bool)
    (remoteOpers : Option PrivConf) : Option (OperClient × PrivDefaults) :=
  if !client.myConnect then some (client, d)
  else
    let client := { client with privs := fun _ => false }
    if !client.isAnOper || (oper.isNone && !forceOper) then some (client, d)
    else
      let d := d.init
      let cls := lookUpClass oper remoteOpers
      (d.choose oper cls).map fun defaults =>
        ({ client with privs := settlePrivs (takePrivs (privSource oper cls defaults)) }, d)

inductive DefaultsReached : PrivDefaults → Prop
  | start : DefaultsReached ⟨false, fun _ => false, fun _ => false⟩
  | call {d d' : PrivDefaults} {client client' : OperClient} {oper : Option OperConf} {forceOper : Bool}
      {remoteOpers : Option PrivConf} (before : DefaultsReached d)
      (returns : clientSetPrivs d client oper forceOper remoteOpers = some (client', d')) : DefaultsReached d'

def PrivConf.setting (c : PrivConf) (priv : Priv) : Option Bool := if c.dirty priv then some (c.privs priv) else .none

def configured (oper : Option OperConf) (cls : Option PrivConf) (priv : Priv) : Option Bool :=
  (oper.bind fun oper => oper.block.setting priv).or (cls.bind fun c => c.setting priv)

def globalDefaults (priv : Priv) : Bool := !notGlobal.contains priv

def localDefaults (priv : Priv) : Bool := forLocal.contains priv

def layered (oper : Option OperConf) (cls : Option PrivConf) (priv : Priv) : Bool :=
  (configured oper cls priv).getD
    (if (configured oper cls .propagate).getD true then globalDefaults priv else localDefaults priv)

def PrivConf.Grants (c : PrivConf) : Prop := c.setting .propagate = some true

instance (c : PrivConf) : Decidable c.Grants := inferInstanceAs (Decidable (_ = _))

/-- The class of the block; without a block the class `RemoteOpers`, if it grants PROPAGATE. -/
def classFor (oper : Option OperConf) (remoteOpers : Option PrivConf) : Option PrivConf :=
  match oper with
  | some oper => some oper.connClass
  | .none => remoteOpers.filter fun c => c.Grants

/-- What the function should do: it returns, with the privileges by layers, and without the desynching ones for an
operator who does not propagate. -/
def PrivsByLayers (d : PrivDefaults) (client : OperClient) (oper : Option OperConf) (forceOper : Bool)
    (remoteOpers : Option PrivConf) : Prop :=
  ∃ client' d', clientSetPrivs d client oper forceOper remoteOpers = some (client', d') ∧
    client'.privs = settlePrivs (layered oper (classFor oper remoteOpers)) ∧
    (client'.privs .propagate = false → ∀ priv ∈ desynching, client'.privs priv = false)

/-- The class `RemoteOpers` sets MODE_LCHAN just if it grants PROPAGATE; one that only grants PROPAGATE may say what the
global defaults say. -/
def RemoteAgrees (c : PrivConf) : Prop :=
  (c.dirty .modeLchan = true → c.Grants) ∧
    (c.Grants → c.dirty .modeLchan = true ∨
      ∀ priv, priv ≠ .display → c.dirty priv = true → c.privs priv = globalDefaults priv)

theorem mem_privList (priv : Priv) : priv ∈ privList := by cases priv <;> decide

theorem takePrivs_eq (source : Priv → Priv → Bool) : takePrivs source = fun priv => source priv priv := by
  have fold (l : List Priv) (privs : Priv → Bool) (priv : Priv) :
      l.foldl (fun privs p => if source p p then Function.update privs p true else privs) privs priv =
        (privs priv || (l.contains priv && source priv priv)) := by
    induction l generalizing privs with
    | nil => simp
    | cons p l ih =>
      rw [List.foldl_cons, ih, List.contains_cons]
      by_cases here : priv = p
      · subst here
        cases set : source priv priv with
        | true => simp
        | false => simp
      · have apart : (priv == p) = false := beq_false_of_ne here
        rw [apart, Bool.false_or]
        congr 1
        split
        · exact Function.update_of_ne here _ _
        · rfl
  funext priv
  rw [takePrivs, fold, Bool.false_or, List.contains_iff_mem.mpr (mem_privList priv), Bool.true_and]

theorem DefaultsReached.known {d : PrivDefaults} (reached : DefaultsReached d) :
    d.init = ⟨true, globalDefaults, localDefaults⟩ := by
  induction reached with
  | start => rfl
  | @call d d' client client' oper forceOper remoteOpers before returns ih =>
    unfold clientSetPrivs at returns
    split at returns
    · rw [← (Prod.mk.inj (Option.some.inj returns)).2, ih]
    · simp only at returns
      split at returns
      · rw [← (Prod.mk.inj (Option.some.inj returns)).2, ih]
      · obtain ⟨defaults, -, same⟩ := Option.map_eq_some_iff.mp returns
        rw [← (Prod.mk.inj same).2, ih]
        rfl

theorem propagate_or (value : Bool) : orNumber Priv.propagate.ctorIdx value = Priv.modeLchan.ctorIdx := rfl

theorem lookUpClass_none (remoteOpers : Option PrivConf) :
    lookUpClass .none remoteOpers = remoteOpers.filter fun c => c.dirty .modeLchan := by
  unfold lookUpClass
  simp only [propagate_or, flagHas_ctorIdx]

theorem privSource_eq (oper : Option OperConf) (cls : Option PrivConf) (defaults : Priv → Bool) (priv : Priv) :
    privSource oper cls defaults priv priv = (configured oper cls priv).getD (defaults priv) := by
  unfold privSource configured PrivConf.setting
  cases oper with
  | none =>
    cases cls with
    | none => rfl
    | some c => by_cases here : c.dirty priv = true <;> simp [here]
  | some oper =>
    by_cases first : oper.block.dirty priv = true
    · simp [first]
    · cases cls with
      | none => simp [first]
      | some c => by_cases here : c.dirty priv = true <;> simp [first, here]

theorem choose_eq {d : PrivDefaults} {oper : Option OperConf} {cls : Option PrivConf}
    (known : (configured oper cls .propagate).isSome ∨ oper = .none ∧ cls = .none) :
    d.choose oper cls =
      some (if (configured oper cls .propagate).getD true then d.privsGlobal else d.privsLocal) := by
  unfold PrivDefaults.choose
  unfold configured PrivConf.setting at *
  cases oper with
  | none =>
    cases cls with
    | none => rfl
    | some c =>
      have set : c.dirty .propagate = true := by
        rcases known with given | ⟨-, absent⟩
        · simpa using given
        · cases absent
      simp [set]
  | some oper =>
    by_cases first : oper.block.dirty .propagate = true
    · simp [first]
    · cases cls with
      | none => simp [first] at known
      | some c =>
        have set : c.dirty .propagate = true := by simpa [first] using known
        simp [first, set]

/-- A class `RemoteOpers` that is considered but does not set PROPAGATE fails the assertion. -/
theorem choose_none {d : PrivDefaults} {c : PrivConf} (unset : c.dirty .propagate = false) :
    d.choose .none (some c) = .none := by
  simp [PrivDefaults.choose, unset]

section
variable {d : PrivDefaults} (reached : DefaultsReached d) {client : OperClient} (connected : client.myConnect = true)
  (an_oper : client.isAnOper = true) {oper : Option OperConf} {forceOper : Bool}
  (asked : oper.isSome = true ∨ forceOper = true) (remoteOpers : Option PrivConf)
include reached connected an_oper asked

theorem clientSetPrivs_eq :
    clientSetPrivs d client oper forceOper remoteOpers =
      ((PrivDefaults.mk true globalDefaults localDefaults).choose oper (lookUpClass oper remoteOpers)).map fun defaults =>
        ({ client with
            privs := settlePrivs fun priv => (configured oper (lookUpClass oper remoteOpers) priv).getD (defaults priv) },
          ⟨true, globalDefaults, localDefaults⟩) := by
  have not_skipped : (oper.isNone && !forceOper) = false := by
    rcases asked with given | forced
    · rw [Option.isNone_eq_false_iff.mpr given, Bool.false_and]
    · rw [forced, Bool.not_true, Bool.and_false]
  unfold clientSetPrivs
  simp only [connected, an_oper, not_skipped, Bool.not_true, Bool.or_self, Bool.false_eq_true, if_false, reached.known,
    takePrivs_eq, privSource_eq]

/-- Where PROPAGATE is known, the privileges are those of the layers with the class that is considered. -/
theorem clientSetPrivs_layered
    (known : (configured oper (lookUpClass oper remoteOpers) .propagate).isSome ∨
      oper = .none ∧ lookUpClass oper remoteOpers = .none) :
    clientSetPrivs d client oper forceOper remoteOpers =
      some ({ client with privs := settlePrivs (layered oper (lookUpClass oper remoteOpers)) },
        ⟨true, globalDefaults, localDefaults⟩) := by
  rw [clientSetPrivs_eq reached connected an_oper asked, choose_eq known, Option.map_some]
  congr 4
  funext priv
  unfold layered
  split <;> rfl

end

@[simp] theorem settlePrivs_propagate (privs : Priv → Bool) : settlePrivs privs .propagate = privs .propagate := by
  unfold settlePrivs
  split
  · exact Function.update_of_ne (by decide) _ _
  · exact Bool.and_true _

theorem settlePrivs_desynching {privs : Priv → Bool} (local_oper : privs .propagate = false) {priv : Priv}
    (mem : priv ∈ desynching) : settlePrivs privs priv = false := by
  have listed : desynching.contains priv = true := List.contains_iff_mem.mpr mem
  unfold settlePrivs
  rw [if_neg (by simp [local_oper])]
  exact (congrArg (privs priv && !·) listed).trans (Bool.and_false _)

theorem settlePrivs_eq_iff {privs privs' : Priv → Bool} (propagates : privs .propagate = true)
    (propagates' : privs' .propagate = true) :
    settlePrivs privs = settlePrivs privs' ↔ ∀ priv, priv ≠ .display → privs priv = privs' priv := by
  unfold settlePrivs
  rw [if_pos propagates, if_pos propagates']
  constructor
  · intro same priv other
    have here := congrFun same priv
    rwa [Function.update_of_ne other, Function.update_of_ne other] at here
  · intro same
    funext priv
    by_cases here : priv = .display
    · rw [here, Function.update_self, Function.update_self]
    · rw [Function.update_of_ne here, Function.update_of_ne here, same priv here]

theorem PrivConf.grants_iff (c : PrivConf) : c.Grants ↔ c.dirty .propagate = true ∧ c.privs .propagate = true := by
  unfold Grants setting
  split
  · simp [*]
  · simp [*]

section
variable {d : PrivDefaults} (reached : DefaultsReached d) {client : OperClient} (connected : client.myConnect = true)
  (an_oper : client.isAnOper = true) {oper : Option OperConf} {forceOper : Bool}
  (asked : oper.isSome = true ∨ forceOper = true) (remoteOpers : Option PrivConf)
include reached connected an_oper asked

theorem privsByLayers_iff
    (known : (configured oper (lookUpClass oper remoteOpers) .propagate).isSome ∨
      oper = .none ∧ lookUpClass oper remoteOpers = .none) :
    PrivsByLayers d client oper forceOper remoteOpers ↔
      settlePrivs (layered oper (lookUpClass oper remoteOpers)) =
        settlePrivs (layered oper (classFor oper remoteOpers)) := by
  unfold PrivsByLayers
  rw [clientSetPrivs_layered reached connected an_oper asked remoteOpers known]
  constructor
  · rintro ⟨client', d', returns, same, -⟩
    rw [← (Prod.mk.inj (Option.some.inj returns)).1] at same
    exact same
  · intro same
    refine ⟨_, _, rfl, same, fun local_oper priv mem => ?_⟩
    simp only [settlePrivs_propagate] at local_oper
    exact settlePrivs_desynching local_oper mem

end

theorem OperConf.propagate_isSome (oper : OperConf) (remoteOpers : Option PrivConf) :
    (configured (some oper) (lookUpClass (some oper) remoteOpers) .propagate).isSome = true := by
  have set := oper.propagate_set
  unfold configured lookUpClass PrivConf.setting
  by_cases first : oper.block.dirty .propagate = true
  · simp [first]
  · simp [first, set.resolve_left first]

theorem layered_none : layered .none .none = globalDefaults := rfl

theorem PrivConf.Grants.layered {c : PrivConf} (grants : c.Grants) (priv : Priv) :
    layered .none (some c) priv = (c.setting priv).getD (globalDefaults priv) := by
  have known : (c.setting .propagate).getD true = true := by rw [grants, Option.getD_some]
  simp only [Users.layered, configured, Option.bind_none, Option.none_or, Option.bind_some, known, if_true]

theorem layered_denies {c : PrivConf} (set : c.dirty .propagate = true) (denies : ¬ c.Grants) :
    layered .none (some c) .propagate = false := by
  rw [c.grants_iff, and_iff_right set, Bool.not_eq_true] at denies
  simp [layered, configured, PrivConf.setting, set, denies]

/-- A class changes nothing of the global defaults if all that it sets is as they have it. -/
theorem PrivConf.setting_getD (c : PrivConf) (priv : Priv) :
    globalDefaults priv = (c.setting priv).getD (globalDefaults priv) ↔
      (c.dirty priv = true → c.privs priv = globalDefaults priv) := by
  unfold setting
  split
  · rename_i set
    rw [Option.getD_some, eq_comm]
    simp [set]
  · rename_i unset
    simp [unset]

theorem classFor_none (c : PrivConf) : classFor .none (some c) = if c.Grants then some c else .none := by
  simp [classFor, Option.filter_some]

section
variable {d : PrivDefaults} (reached : DefaultsReached d) {client : OperClient} (connected : client.myConnect = true)
  (an_oper : client.isAnOper = true)
include reached connected an_oper

/-- A class `RemoteOpers` that sets MODE_LCHAN is considered, whatever it says about PROPAGATE. -/
theorem privsByLayers_considered {c : PrivConf} (considered : c.dirty .modeLchan = true) :
    PrivsByLayers d client .none true (some c) ↔ c.Grants := by
  have cls : lookUpClass .none (some c) = some c := by
    rw [lookUpClass_none, Option.filter_some, if_pos considered]
  have asked : (Option.none : Option OperConf).isSome = true ∨ true = true := .inr rfl
  by_cases set : c.dirty .propagate = true
  · have known : (configured .none (lookUpClass .none (some c)) .propagate).isSome = true := by
      rw [cls]
      simp [configured, PrivConf.setting, set]
    rw [privsByLayers_iff reached connected an_oper asked (some c) (.inl known), cls, classFor_none]
    by_cases grants : c.Grants
    · rw [if_pos grants]
      exact iff_of_true rfl grants
    · rw [if_neg grants]
      refine iff_of_false (fun same => ?_) grants
      have here := congrFun same .propagate
      rw [settlePrivs_propagate, settlePrivs_propagate, layered_denies set grants] at here
      cases here
  · refine iff_of_false ?_ fun grants => set (c.grants_iff.mp grants).1
    rintro ⟨client', d', returns, -⟩
    rw [clientSetPrivs_eq reached connected an_oper asked, cls, choose_none (Bool.not_eq_true _ ▸ set)] at returns
    cases returns

theorem privsByLayers_passed_over {c : PrivConf} (considered : ¬ c.dirty .modeLchan = true) :
    PrivsByLayers d client .none true (some c) ↔
      (c.Grants → ∀ priv, priv ≠ .display → c.dirty priv = true → c.privs priv = globalDefaults priv) := by
  have cls : lookUpClass .none (some c) = .none := by
    rw [lookUpClass_none, Option.filter_some, if_neg considered]
  rw [privsByLayers_iff reached connected an_oper (.inr rfl) (some c) (.inr ⟨rfl, cls⟩), cls, classFor_none,
    layered_none]
  by_cases grants : c.Grants
  · have propagates : layered .none (some c) .propagate = true := by
      rw [grants.layered, grants, Option.getD_some]
    rw [if_pos grants, settlePrivs_eq_iff rfl propagates, imp_iff_right grants]
    refine forall₂_congr fun priv _ => ?_
    rw [grants.layered]
    exact c.setting_getD priv
  · rw [if_neg grants]
    exact iff_of_true rfl fun granted => absurd granted grants

theorem privsByLayers_remote (c : PrivConf) : PrivsByLayers d client .none true (some c) ↔ RemoteAgrees c := by
  unfold RemoteAgrees
  by_cases considered : c.dirty .modeLchan = true
  · rw [privsByLayers_considered reached connected an_oper considered]
    simp [considered]
  · rw [privsByLayers_passed_over reached connected an_oper considered]
    simp [considered]

/-- `client_set_privs` returns with the privileges by layers, for any history of calls, if the operator has a block, or
there is no class `RemoteOpers`, or MODE_LCHAN is set there as PROPAGATE is. -/
theorem client_set_privs_by_layers (oper : Option OperConf) (forceOper : Bool)
    (asked : oper.isSome = true ∨ forceOper = true) (remoteOpers : Option PrivConf) :
    PrivsByLayers d client oper forceOper remoteOpers ↔ (oper = .none → ∀ c ∈ remoteOpers, RemoteAgrees c) := by
  cases oper with
  | some oper =>
    have known := oper.propagate_isSome remoteOpers
    refine iff_of_true ((privsByLayers_iff reached connected an_oper asked remoteOpers (.inl known)).mpr rfl) ?_
    rintro ⟨⟩
  | none =>
    obtain rfl : forceOper = true := asked.resolve_left Bool.false_ne_true
    cases remoteOpers with
    | none =>
      refine iff_of_true ((privsByLayers_iff reached connected an_oper asked .none (.inr ⟨rfl, rfl⟩)).mpr rfl) ?_
      rintro - c ⟨⟩
    | some c =>
      rw [privsByLayers_remote reached connected an_oper c]
      simp

end

def localOper : OperConf := ⟨PrivConf.none.item .propagate true true, PrivConf.none, .inl rfl⟩

theorem client_set_privs_localOper :
    PrivsByLayers ⟨false, fun _ => false, fun _ => false⟩ ⟨true, true, fun _ => false⟩ (some localOper) true .none ↔
      (some localOper = .none → ∀ c ∈ (Option.none : Option PrivConf), RemoteAgrees c) :=
  client_set_privs_by_layers .start rfl rfl (some localOper) true (.inl rfl) .none

/-- A class `RemoteOpers` that sets MODE_LCHAN alone fails the assertion. -/
theorem remote_opers_assertion :
    DefaultsReached ⟨false, fun _ => false, fun _ => false⟩ ∧
      clientSetPrivs ⟨false, fun _ => false, fun _ => false⟩ ⟨true, true, fun _ => false⟩ .none true
        (some (PrivConf.none.item .modeLchan true false)) = .none :=
  ⟨.start, rfl⟩

end Ircd.Users
