import Ircd.Numnicks.Base64
import Mathlib.Data.List.Nodup
import Mathlib.Logic.Function.Basic

/-! The numeric nicks of local clients: `SetLocalNumNick`, `RemoveYXXClient` and `findNUser`.

A client's numeric has eighteen bits and its slot in `client_list` is the numeric under the
server's mask, so numerics go round while slots are taken again.
-/

set_option autoImplicit false

namespace Ircd.Numnicks
open Ircd.Text

def nnMaxServer : Nat := 4096

def nnMaxClient : Nat := 262144

structure Server (γ : Type) where
  yxx : List Char
  nnMask : Nat
  clientList : Nat → Option γ

/-- The servers by reference, `server_list`, the `yxx` of each client and `last_nn`. -/
structure Net (σ γ : Type) where
  serv : σ → Server γ
  serverList : Nat → Option σ
  yxx : γ → List Char
  lastNn : Nat

section
variable {σ γ : Type} [DecidableEq σ] [DecidableEq γ]

def findXNServer (net : Net σ γ) (numeric : List Char) : Option σ :=
  net.serverList (base64toint (numeric.take 2))

def findNServer (net : Net σ γ) (numeric : List Char) : Option σ :=
  if numeric.length < 3 then net.serverList (base64toint numeric)
  else if numeric.length = 3 then net.serverList (convert2n (peek numeric))
  else findXNServer net numeric

def findNUser (net : Net σ γ) (yxx : List Char) : Option γ :=
  if yxx.length = 5 then
    match findXNServer net yxx with
    | some server => (net.serv server).clientList (base64toint (yxx.drop 2) &&& (net.serv server).nnMask)
    | none => none
  else
    match findNServer net yxx with
    | some server => (net.serv server).clientList (base64toint (yxx.drop 1) &&& (net.serv server).nnMask)
    | none => none

def removeYXXClient (net : Net σ γ) (server : σ) (yxx : List Char) : Net σ γ :=
  if peek yxx ≠ nul then
    let serv := net.serv server
    { net with
      serv := Function.update net.serv server
        { serv with clientList := Function.update serv.clientList (base64toint yxx &&& serv.nnMask) none } }
  else net

/-- The loop that doubles `max_clients`; `none` when it does not end. -/
def maxClients (capacity : Nat) : Nat → Nat → Option Nat
  | 0, _ => none
  | fuel + 1, m => if m < capacity then maxClients capacity fuel (m * 2 % 2 ^ 32) else some m

/-- `SetYXXCapacity`; `none` when the server does not start. -/
def setYXXCapacity (net : Net σ γ) (c : σ) (capacity : Nat) : Option (Net σ γ) :=
  match maxClients capacity 32 16 with
  | none => none
  | some m =>
    if m > nnMaxClient then none
    else some { net with
      serv := Function.update net.serv c { net.serv c with nnMask := m - 1, clientList := fun _ => none }
      serverList := Function.update net.serverList (base64toint (net.serv c).yxx) (some c) }

/-- `SetYXXServerName`; `none` when its assertion fails. -/
def setYXXServerName (net : Net σ γ) (c : σ) (numeric : Nat) : Option (Net σ γ) :=
  if numeric < nnMaxServer then
    some { net with
      serv := Function.update net.serv c { net.serv c with yxx := inttobase64 numeric 2 }
      serverList := Function.update net.serverList numeric (some c) }
  else none

def bump (nn : Nat) : Nat := if nn + 1 = nnMaxClient then 0 else nn + 1

/-- The loop of `SetLocalNumNick` with `left` turns before `count` is `NN_MAX_CLIENT`: the
last `last_nn`, and whether its slot is free. -/
def scan (clientList : Nat → Option γ) (mask : Nat) : Nat → Nat → Nat × Bool
  | 0, nn => (nn, false)
  | left + 1, nn =>
    if (clientList (nn &&& mask)).isSome then
      if left = 0 then (nn, false) else scan clientList mask left (bump nn)
    else (nn, true)

def reserve (net : Net σ γ) (me : σ) (cptr : γ) (nn : Nat) : Net σ γ :=
  let serv := net.serv me
  { net with
    serv := Function.update net.serv me
      { serv with clientList := Function.update serv.clientList (nn &&& serv.nnMask) (some cptr) }
    yxx := Function.update net.yxx cptr (inttobase64 nn 3)
    lastNn := bump nn }

/-- `SetLocalNumNick`, with `me` the server it runs on. -/
def setLocalNumNick (net : Net σ γ) (me : σ) (cptr : γ) : Bool × Net σ γ :=
  let found := scan (net.serv me).clientList (net.serv me).nnMask nnMaxClient net.lastNn
  if found.2 then (true, reserve net me cptr found.1) else (false, { net with lastNn := found.1 })

/-- The part of `exit_one_client` that concerns the numeric: the client is freed after it. -/
def exitOneClient (net : Net σ γ) (me : σ) (bcptr : γ) : Net σ γ :=
  let net := removeYXXClient net me (net.yxx bcptr)
  { net with yxx := Function.update net.yxx bcptr [] }

/-- The server starts: no client is there and no numeric has been given. -/
def start (net : Net σ γ) (me : σ) (numeric capacity : Nat) : Option (Net σ γ) :=
  (setYXXServerName { net with yxx := fun _ => [], lastNn := 0 } me numeric).bind (setYXXCapacity · me capacity)

/-- The states reached from `net`, each with the clients accepted and not yet gone. A client
registers once. -/
inductive Serves (me : σ) (net : Net σ γ) : Net σ γ → List γ → Prop
  | start : Serves me net net []
  | accept {s : Net σ γ} {live : List γ} {c : γ} (run : Serves me net s live) (fresh : c ∉ live)
      (ok : (setLocalNumNick s me c).1 = true) : Serves me net (setLocalNumNick s me c).2 (c :: live)
  | refuse {s : Net σ γ} {live : List γ} {c : γ} (run : Serves me net s live) (fresh : c ∉ live)
      (no : (setLocalNumNick s me c).1 = false) : Serves me net (setLocalNumNick s me c).2 live
  | exit {s : Net σ γ} {live : List γ} (c : γ) (run : Serves me net s live) :
      Serves me net (exitOneClient s me c) (live.erase c)

def slot (net : Net σ γ) (me : σ) (c : γ) : Nat := base64toint (net.yxx c) &&& (net.serv me).nnMask

structure Registered (me : σ) (numeric : Nat) (net : Net σ γ) (live : List γ) : Prop where
  known : net.serverList numeric = some me
  named : (net.serv me).yxx = inttobase64 numeric 2
  small : numeric < nnMaxServer
  mask : ∃ k ≤ 18, (net.serv me).nnMask = 2 ^ k - 1
  last : net.lastNn < nnMaxClient
  distinct : live.Nodup
  numbered : ∀ c ∈ live, ∃ nn < nnMaxClient, net.yxx c = inttobase64 nn 3
  blank : ∀ c, c ∉ live → net.yxx c = []
  held : ∀ i c, (net.serv me).clientList i = some c ↔ c ∈ live ∧ i = slot net me c

theorem bump_lt {nn : Nat} (small : nn < nnMaxClient) : bump nn < nnMaxClient := by
  unfold bump nnMaxClient at *
  split <;> omega

theorem bump_eq {nn : Nat} (small : nn < nnMaxClient) : bump nn = (nn + 1) % nnMaxClient := by
  unfold bump
  split
  · rename_i last
    rw [last, Nat.mod_self]
  · rw [Nat.mod_eq_of_lt (by omega)]

omit [DecidableEq γ] in
theorem scan_lt (clientList : Nat → Option γ) (mask : Nat) {left nn : Nat} (small : nn < nnMaxClient) :
    (scan clientList mask left nn).1 < nnMaxClient := by
  induction left generalizing nn with
  | zero => exact small
  | succ left ih =>
    rw [scan]
    split
    · split
      · exact small
      · exact ih (bump_lt small)
    · exact small

omit [DecidableEq γ] in
theorem scan_free {clientList : Nat → Option γ} {mask left nn : Nat}
    (found : (scan clientList mask left nn).2 = true) :
    clientList ((scan clientList mask left nn).1 &&& mask) = none := by
  induction left generalizing nn with
  | zero => cases found
  | succ left ih =>
    rw [scan] at found ⊢
    split
    · rename_i taken
      rw [if_pos taken] at found
      split
      · rename_i last
        rw [if_pos last] at found
        cases found
      · rename_i more
        rw [if_neg more] at found
        exact ih found
    · rename_i free
      simpa using free

omit [DecidableEq γ] in
theorem scan_full {clientList : Nat → Option γ} {mask left nn : Nat} (small : nn < nnMaxClient)
    (full : (scan clientList mask left nn).2 = false) {k : Nat} (passed : k < left) :
    (clientList ((nn + k) % nnMaxClient &&& mask)).isSome := by
  induction left generalizing nn k with
  | zero => exact absurd passed (Nat.not_lt_zero k)
  | succ left ih =>
    rw [scan] at full
    by_cases taken : (clientList (nn &&& mask)).isSome
    · rw [if_pos taken] at full
      cases k with
      | zero => rwa [Nat.add_zero, Nat.mod_eq_of_lt small]
      | succ k =>
        rw [if_neg (by omega)] at full
        have later := ih (bump_lt small) full (Nat.lt_of_succ_lt_succ passed)
        rwa [bump_eq small, Nat.mod_add_mod, Nat.add_assoc, Nat.add_comm 1 k] at later
    · rw [if_neg taken] at full
      cases full

theorem exists_turn {nn i : Nat} (small : nn < nnMaxClient) (small_i : i < nnMaxClient) :
    ∃ k < nnMaxClient, (nn + k) % nnMaxClient = i := by
  refine ⟨(nnMaxClient - nn + i) % nnMaxClient, Nat.mod_lt _ (by decide), ?_⟩
  rw [Nat.add_mod_mod, ← Nat.add_assoc, Nat.add_sub_cancel' (Nat.le_of_lt small), Nat.add_mod_left,
    Nat.mod_eq_of_lt small_i]

variable {numeric : Nat} {net : Net σ γ} {live : List γ}

omit [DecidableEq σ] [DecidableEq γ] in
theorem Registered.slot_self {me : σ} (reg : Registered me numeric net live) {i : Nat}
    (within : i ≤ (net.serv me).nnMask) :
    i < nnMaxClient ∧ i &&& (net.serv me).nnMask = i := by
  obtain ⟨k, few, mask⟩ := reg.mask
  have bound : 2 ^ k ≤ 2 ^ 18 := Nat.pow_le_pow_right (by decide) few
  have some_mask : 0 < 2 ^ k := Nat.two_pow_pos k
  rw [mask] at within ⊢
  refine ⟨by unfold nnMaxClient; omega, ?_⟩
  rw [Nat.and_two_pow_sub_one_eq_mod, Nat.mod_eq_of_lt (by omega)]

theorem base64toint_numeric {nn : Nat} (small : nn < nnMaxClient) : base64toint (inttobase64 nn 3) = nn :=
  base64toint_inttobase64 (by decide) small (by unfold nnMaxClient at small; omega)

theorem setLocalNumNick_accepts {me : σ} {c : γ} (last : net.lastNn < nnMaxClient)
    (ok : (setLocalNumNick net me c).1 = true) :
    ∃ nn < nnMaxClient, (net.serv me).clientList (nn &&& (net.serv me).nnMask) = none ∧
      (setLocalNumNick net me c).2 = reserve net me c nn := by
  unfold setLocalNumNick at ok ⊢
  by_cases found : (scan (net.serv me).clientList (net.serv me).nnMask nnMaxClient net.lastNn).2
  · rw [if_pos found]
    exact ⟨_, scan_lt _ _ last, scan_free found, rfl⟩
  · rw [if_neg found] at ok
    cases ok

theorem setLocalNumNick_refuses {me : σ} {c : γ} (last : net.lastNn < nnMaxClient)
    (no : (setLocalNumNick net me c).1 = false) :
    (∃ nn < nnMaxClient, (setLocalNumNick net me c).2 = { net with lastNn := nn }) ∧
      ∀ k < nnMaxClient,
        ((net.serv me).clientList ((net.lastNn + k) % nnMaxClient &&& (net.serv me).nnMask)).isSome := by
  unfold setLocalNumNick at no ⊢
  by_cases found : (scan (net.serv me).clientList (net.serv me).nnMask nnMaxClient net.lastNn).2
  · rw [if_pos found] at no
    cases no
  · rw [if_neg found]
    exact ⟨⟨_, scan_lt _ _ last, rfl⟩, fun k passed => scan_full last (by simpa using found) passed⟩

theorem registered_reserve {me : σ} {c : γ} {nn : Nat} (reg : Registered me numeric net live) (fresh : c ∉ live)
    (small : nn < nnMaxClient) (free : (net.serv me).clientList (nn &&& (net.serv me).nnMask) = none) :
    Registered me numeric (reserve net me c nn) (c :: live) := by
  have slot_c : base64toint (inttobase64 nn 3) = nn := base64toint_numeric small
  have others : ∀ d, d ≠ c → (reserve net me c nn).yxx d = net.yxx d := fun d other =>
    Function.update_of_ne other _ _
  refine ⟨reg.known, ?_, reg.small, ?_, bump_lt small, List.nodup_cons.mpr ⟨fresh, reg.distinct⟩, ?_, ?_, ?_⟩
  · simpa [reserve] using reg.named
  · simpa [reserve] using reg.mask
  · intro d mem_d
    by_cases same : d = c
    · exact ⟨nn, small, by simp [reserve, same]⟩
    · rw [others d same]
      exact reg.numbered d (by simpa [same] using mem_d)
  · intro d out_d
    rw [List.mem_cons, not_or] at out_d
    rw [others d out_d.1]
    exact reg.blank d out_d.2
  · intro i d
    simp only [slot, reserve, Function.update_self]
    by_cases here : i = nn &&& (net.serv me).nnMask
    · subst here
      rw [Function.update_self]
      by_cases same : d = c
      · simp [same, slot_c]
      · have nobody : ¬ (d ∈ live ∧ nn &&& (net.serv me).nnMask = slot net me d) := by
          rw [← reg.held, free]
          simp
        simpa [same, Ne.symm same, slot] using nobody
    · rw [Function.update_of_ne here, reg.held]
      by_cases same : d = c
      · simp [same, fresh, slot_c, here]
      · simp [same, slot]

theorem peek_numeric (nn : Nat) : peek (inttobase64 nn 3) ≠ nul := by
  rw [inttobase64_three, peek_cons]
  exact digit_ne_nul _

theorem exitOneClient_clientList {me : σ} (reg : Registered me numeric net live) (c : γ) :
    ((exitOneClient net me c).serv me).clientList =
      if c ∈ live then Function.update (net.serv me).clientList (slot net me c) none
      else (net.serv me).clientList := by
  by_cases here : c ∈ live
  · obtain ⟨nn, _, yxx⟩ := reg.numbered c here
    have digits : peek (net.yxx c) ≠ nul := by
      rw [yxx]
      exact peek_numeric nn
    simp only [exitOneClient, removeYXXClient, if_pos digits, if_pos here, Function.update_self, slot]
  · simp only [exitOneClient, removeYXXClient, reg.blank c here, peek_nil, ne_eq, not_true, if_false,
      if_neg here]

theorem registered_exit {me : σ} (reg : Registered me numeric net live) (c : γ) :
    Registered me numeric (exitOneClient net me c) (live.erase c) := by
  have others : ∀ d, d ≠ c → (exitOneClient net me c).yxx d = net.yxx d := by
    intro d other
    simp only [exitOneClient, removeYXXClient]
    split <;> exact Function.update_of_ne other _ _
  have blank_c : (exitOneClient net me c).yxx c = [] := by
    simp only [exitOneClient, removeYXXClient, Function.update_self]
  have mask_eq : ((exitOneClient net me c).serv me).nnMask = (net.serv me).nnMask := by
    simp only [exitOneClient, removeYXXClient]
    split <;> simp
  refine ⟨?_, ?_, reg.small, ?_, ?_, reg.distinct.erase c, ?_, ?_, ?_⟩
  · simp only [exitOneClient, removeYXXClient]
    split <;> exact reg.known
  · simp only [exitOneClient, removeYXXClient]
    split <;> simpa using reg.named
  · rw [mask_eq]
    exact reg.mask
  · simp only [exitOneClient, removeYXXClient]
    split <;> exact reg.last
  · intro d mem_d
    obtain ⟨other, mem_d⟩ := reg.distinct.mem_erase_iff.mp mem_d
    rw [others d other]
    exact reg.numbered d mem_d
  · intro d out_d
    by_cases same : d = c
    · rw [same, blank_c]
    · rw [others d same]
      exact reg.blank d fun mem_d => out_d (reg.distinct.mem_erase_iff.mpr ⟨same, mem_d⟩)
  · intro i d
    rw [exitOneClient_clientList reg c, reg.distinct.mem_erase_iff]
    have slot_d : d ≠ c → slot (exitOneClient net me c) me d = slot net me d := by
      intro other
      rw [slot, slot, others d other, mask_eq]
    by_cases here : c ∈ live
    · rw [if_pos here]
      by_cases at_c : i = slot net me c
      · -- The slot of the client that left is free: nobody else was in it.
        rw [at_c, Function.update_self]
        simp only [reduceCtorEq, false_iff, not_and]
        rintro ⟨other, mem_d⟩ same_slot
        have held_d := (reg.held (slot net me c) d).mpr ⟨mem_d, same_slot.trans (slot_d other)⟩
        rw [(reg.held (slot net me c) c).mpr ⟨here, rfl⟩] at held_d
        exact other (Option.some.inj held_d).symm
      · rw [Function.update_of_ne at_c, reg.held]
        by_cases same : d = c
        · simp [same, at_c]
        · simp [same, slot_d same]
    · rw [if_neg here, reg.held]
      by_cases same : d = c
      · simp [same, here]
      · simp [same, slot_d same]

theorem maxClients_pow {capacity fuel m m' : Nat} (done : maxClients capacity fuel m = some m')
    (power : (∃ k, m = 2 ^ k) ∨ m = 0 ∧ 0 < capacity) : ∃ k, m' = 2 ^ k := by
  induction fuel generalizing m with
  | zero => cases done
  | succ fuel ih =>
    rw [maxClients] at done
    by_cases less : m < capacity
    · rw [if_pos less] at done
      refine ih done ?_
      rcases power with ⟨k, rfl⟩ | ⟨rfl, some_capacity⟩
      · by_cases big : 32 ≤ k + 1
        · right
          refine ⟨?_, Nat.lt_of_le_of_lt (Nat.zero_le _) less⟩
          rw [← Nat.pow_succ]
          exact Nat.mod_eq_zero_of_dvd (Nat.pow_dvd_pow 2 big)
        · left
          refine ⟨k + 1, ?_⟩
          rw [← Nat.pow_succ]
          exact Nat.mod_eq_of_lt (Nat.pow_lt_pow_right (by decide) (by omega))
      · exact .inr ⟨by decide, some_capacity⟩
    · rw [if_neg less] at done
      cases done
      rcases power with power | ⟨zero, some_capacity⟩
      · exact power
      · omega

omit [DecidableEq γ] in
theorem registered_start {me : σ} {capacity : Nat} {net₀ : Net σ γ}
    (boot : start net me numeric capacity = some net₀) : Registered me numeric net₀ [] := by
  obtain ⟨named, name, boot⟩ := Option.bind_eq_some_iff.mp boot
  unfold setYXXServerName at name
  by_cases small : numeric < nnMaxServer
  · rw [if_pos small] at name
    cases name
    unfold setYXXCapacity at boot
    cases grown : maxClients capacity 32 16 with
    | none => rw [grown] at boot; cases boot
    | some m =>
      rw [grown] at boot
      obtain ⟨k, rfl⟩ := maxClients_pow grown (.inl ⟨4, by decide⟩)
      by_cases large : 2 ^ k > nnMaxClient
      · simp only [if_pos large] at boot
        cases boot
      · simp only [if_neg large, Option.some.injEq, Function.update_self] at boot
        have index : base64toint (inttobase64 numeric 2) = numeric := by
          apply base64toint_inttobase64 (by decide) small
          unfold nnMaxServer at small
          omega
        have few : k ≤ 18 := by
          by_contra more
          have grows : 2 ^ 19 ≤ 2 ^ k := Nat.pow_le_pow_right (by decide) (by omega)
          unfold nnMaxClient at large
          omega
        subst boot
        refine ⟨?_, ?_, small, ⟨k, few, ?_⟩, Nat.zero_lt_succ _, List.nodup_nil, ?_, fun c _ => rfl, ?_⟩
        · simp [index]
        · simp
        · simp
        · simp
        · simp
  · rw [if_neg small] at name
    cases name

theorem serves_registered {me : σ} {capacity : Nat} {net₀ net' : Net σ γ}
    (boot : start net me numeric capacity = some net₀) (run : Serves me net₀ net' live) :
    Registered me numeric net' live := by
  induction run with
  | start => exact registered_start boot
  | accept run fresh ok ih =>
    obtain ⟨nn, small, free, next⟩ := setLocalNumNick_accepts ih.last ok
    rw [next]
    exact registered_reserve ih fresh small free
  | refuse run fresh no ih =>
    obtain ⟨⟨nn, small, next⟩, -⟩ := setLocalNumNick_refuses ih.last no
    rw [next]
    exact { ih with last := small }
  | exit c run ih => exact registered_exit ih c

omit [DecidableEq σ] [DecidableEq γ] in
theorem findNUser_numeric {me : σ} (reg : Registered me numeric net live) {c : γ} (here : c ∈ live) :
    findNUser net ((net.serv me).yxx ++ net.yxx c) = some c := by
  obtain ⟨nn, small, yxx⟩ := reg.numbered c here
  have held := (reg.held (slot net me c) c).mpr ⟨here, rfl⟩
  have two : (inttobase64 numeric 2).length = 2 := length_inttobase64 numeric 2
  have server : findXNServer net ((net.serv me).yxx ++ net.yxx c) = some me := by
    rw [findXNServer, reg.named, List.take_left' two, base64toint_inttobase64 (by decide) reg.small]
    · exact reg.known
    · have := reg.small
      unfold nnMaxServer at this
      omega
  have five : ((net.serv me).yxx ++ net.yxx c).length = 5 := by simp [reg.named, yxx]
  rw [findNUser, if_pos five, server]
  simp only [reg.named, List.drop_left' two]
  exact held

/-- Live clients sit in slots of their own, `findNUser` finds each by its numeric, and a
client is refused only when no slot is free. -/
theorem serves_numnicks {me : σ} {numeric capacity : Nat} {net net₀ net' : Net σ γ} {live : List γ}
    (boot : start net me numeric capacity = some net₀) (run : Serves me net₀ net' live) :
    (∀ c ∈ live, slot net' me c ≤ (net'.serv me).nnMask ∧
      (net'.serv me).clientList (slot net' me c) = some c) ∧
    (∀ c ∈ live, ∀ d ∈ live, c ≠ d → slot net' me c ≠ slot net' me d) ∧
    (∀ c ∈ live, findNUser net' ((net'.serv me).yxx ++ net'.yxx c) = some c) ∧
    ∀ c, (setLocalNumNick net' me c).1 = false →
      ∀ i ≤ (net'.serv me).nnMask, ∃ d ∈ live, (net'.serv me).clientList i = some d := by
  have reg := serves_registered boot run
  refine ⟨fun c here => ⟨Nat.and_le_right, (reg.held _ c).mpr ⟨here, rfl⟩⟩, ?_,
    fun c here => findNUser_numeric reg here, ?_⟩
  · intro c here_c d here_d other same
    have held_c := (reg.held _ c).mpr ⟨here_c, rfl⟩
    rw [same, (reg.held _ d).mpr ⟨here_d, rfl⟩] at held_c
    exact other (Option.some.inj held_c).symm
  · intro c no i within
    obtain ⟨-, full⟩ := setLocalNumNick_refuses reg.last no
    obtain ⟨small_i, self⟩ := reg.slot_self within
    obtain ⟨k, turn, at_i⟩ := exists_turn reg.last small_i
    have taken := full k turn
    rw [at_i, self, Option.isSome_iff_exists] at taken
    obtain ⟨d, held_d⟩ := taken
    exact ⟨d, ((reg.held i d).mp held_d).1, held_d⟩

end

def blankNet : Net Unit Nat := ⟨fun _ => ⟨[], 0, fun _ => none⟩, fun _ => none, fun _ => [], 0⟩

def startedNet : Net Unit Nat := (start blankNet () 5 20).getD blankNet

/-- Two clients come, the first leaves, and the second is still found. -/
theorem serves_numnicks_two : ∃ net' : Net Unit Nat,
    start blankNet () 5 20 = some startedNet ∧ Serves () startedNet net' [2] ∧
      findNUser net' ((net'.serv ()).yxx ++ net'.yxx 2) = some 2 := by
  have boot : start blankNet () 5 20 = some startedNet := by
    obtain ⟨net, starts⟩ : ∃ net, start blankNet () 5 20 = some net :=
      Option.isSome_iff_exists.mp (by decide +kernel)
    rw [startedNet, starts, Option.getD_some]
  have first : (setLocalNumNick startedNet () 1).1 = true := by decide +kernel
  have second : (setLocalNumNick (setLocalNumNick startedNet () 1).2 () 2).1 = true := by decide +kernel
  have run := Serves.exit 1 (Serves.accept (Serves.accept Serves.start (by simp) first) (by simp) second)
  refine ⟨_, boot, run, ?_⟩
  exact (serves_numnicks boot run).2.2.1 2 (by decide)

end Ircd.Numnicks
