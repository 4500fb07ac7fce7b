import Ircd.Channels.BurstModes

/-! Channel modes between two servers: a burst into a channel that is new, and two bursts that
meet in a channel that both sides have.
-/

set_option autoImplicit false

namespace Ircd.Channels
open Ircd.Text

variable {Client : Type} [DecidableEq Client]

/-- The modes of `m` as one server sends them and another reads them, in front of the other
parameters of the line. -/
def receiveModes (world : World Client) (bursting wipeout : Bool) (chan : Channel Client) (m : Mode)
    (rest : List (List Char)) : ParseState Client :=
  (modeParse world bursting (burstFlags wipeout) chan (channelModes forServer m).1
    (words (channelModes forServer m).2 ++ rest)).1

/-- The simple flags, the limit, the key and the passes are the same. -/
structure SameModes (m n : Mode) : Prop where
  simple : ∀ f, f.simple = true → m.mode f = n.mode f
  limit : m.limit = n.limit
  key : m.key = n.key
  apass : m.apass = n.apass
  upass : m.upass = n.upass

theorem receiveModes_mode (world : World Client) (bursting wipeout : Bool) (chan : Channel Client) {m : Mode}
    (valid : m.Valid) (rest : List (List Char)) :
    (receiveModes world bursting wipeout chan m rest).args = rest ∧
      SameModes (receiveModes world bursting wipeout chan m rest).mode
        { mergeParameters chan.mode m with mode := mergeSimple chan.mode.mode m.mode } := by
  obtain ⟨result, parsed, args, simple, parameters⟩ := modeParse_burst world bursting wipeout chan valid rest
  have received : receiveModes world bursting wipeout chan m rest = result := by rw [receiveModes, parsed]
  rw [received]
  refine ⟨args, ?_, by rw [parameters], by rw [parameters], by rw [parameters], by rw [parameters]⟩
  intro f letter
  apply simple f
  rintro rfl
  exact absurd letter (by decide)

/-- The channel that `ms_burst` creates, as `mode_parse` gets it. -/
def freshChannel (timestamp : Int) : Channel Client :=
  { creationTime := timestamp
    mode := ⟨.only .burstAdded, 0, [], [], []⟩
    members := []
    banlist := [] }

/-- `+r` is sent and not read; all other modes arrive as they were. -/
theorem modes_reproduced (world : World Client) (bursting : Bool) (timestamp : Int) {m : Mode} (valid : m.Valid)
    (rest : List (List Char)) :
    (receiveModes world bursting true (freshChannel timestamp) m rest).args = rest ∧
      SameModes (receiveModes world bursting true (freshChannel timestamp) m rest).mode
        { m with mode := m.mode.without (.only .registered) } := by
  obtain ⟨args, merged⟩ := receiveModes_mode world bursting true (freshChannel timestamp) valid rest
  have pass (new : List Char) : mergePass [] new = new := by
    by_cases none : new = [] <;> simp [mergePass, none]
  refine ⟨args, ?_, ?_, merged.key.trans (pass m.key), merged.apass.trans (pass m.apass),
    merged.upass.trans (pass m.upass)⟩
  · intro f letter
    rw [merged.simple f letter]
    cases f <;> first | exact absurd letter (by decide) | simp [mergeSimple, freshChannel, Flag.simple]
  · rw [merged.limit]
    by_cases none : m.limit = 0 <;> simp [mergeParameters, mergeLimit, freshChannel, none]

def quietWorld : World Nat := ⟨fun _ => none, id, fun _ => false, fun _ _ => false, 0⟩

def plainMode (f : Flag) : Mode := ⟨.only f, 0, [], [], []⟩

theorem plainMode_valid (f : Flag) : (plainMode f).Valid where
  exclusive := by
    simp only [plainMode, Flags.only_apply, decide_eq_true_eq]
    rintro ⟨rfl, priv⟩
    exact absurd priv (by decide)
  limit_lt := Nat.two_pow_pos 31
  key := .inl rfl
  upass := .inl rfl
  apass := .inl rfl
  byte := by
    intro c mem
    exact absurd mem List.not_mem_nil

theorem modes_reproduced_secret :
    SameModes (receiveModes quietWorld false true (freshChannel 7) (plainMode .secret) [['A']]).mode
      { plainMode .secret with mode := (plainMode .secret).mode.without (.only .registered) } :=
  (modes_reproduced quietWorld false 7 (plainMode_valid .secret) [['A']]).2

theorem registered_not_reproduced : (plainMode .registered).Valid ∧
    ¬ SameModes (receiveModes quietWorld false true (freshChannel 7) (plainMode .registered) []).mode
      (plainMode .registered) := by
  refine ⟨plainMode_valid .registered, fun same => ?_⟩
  exact absurd (same.simple .registered rfl) (by decide)

/-- Where two bursts meet: no `+s` against `+p`, the same `+r`, a smaller limit that is set
as its flag says, and no key or pass that differs in its case alone. -/
structure Mergeable (a b : Mode) : Prop where
  hidden : ¬ (a.mode .secret = true ∧ b.mode .priv = true) ∧ ¬ (a.mode .priv = true ∧ b.mode .secret = true)
  registered : a.mode .registered = b.mode .registered
  limit : (a.limit < b.limit → (a.mode .limit = true ↔ a.limit ≠ 0)) ∧
    (b.limit < a.limit → (b.mode .limit = true ↔ b.limit ≠ 0))
  key : a.key.map toLower = b.key.map toLower → a.key = b.key
  apass : a.apass.map toLower = b.apass.map toLower → a.apass = b.apass
  upass : a.upass.map toLower = b.upass.map toLower → a.upass = b.upass

theorem mergeLimit_comm_iff (limited_a limited_b : Bool) (a b : Nat) :
    mergeLimit limited_a a b = mergeLimit limited_b b a ↔
      (a < b → (limited_a = true ↔ a ≠ 0)) ∧ (b < a → (limited_b = true ↔ b ≠ 0)) := by
  rcases Nat.lt_trichotomy a b with less | rfl | more
  · have not_more : ¬ b < a := by omega
    by_cases none : a = 0
    · subst none
      cases limited_a <;> simp [mergeLimit, less, Nat.ne_of_gt less, Nat.ne_of_lt less]
    · cases limited_a <;> simp [mergeLimit, less, not_more, none, Nat.ne_of_gt less]; omega
  · simp [mergeLimit]
  · have not_less : ¬ a < b := by omega
    by_cases none : b = 0
    · subst none
      cases limited_b <;> simp [mergeLimit, more, Nat.ne_of_gt more]
    · cases limited_b <;> simp [mergeLimit, more, not_less, none]; omega

def MaybePass (pass : List Char) : Prop := pass ≠ [] → CleanPass pass

theorem mergePass_comm_iff {a b : List Char} (clean_a : MaybePass a) (clean_b : MaybePass b) :
    mergePass a b = mergePass b a ↔ (a.map toLower = b.map toLower → a = b) := by
  by_cases none_a : a = []
  · subst none_a
    by_cases none_b : b = [] <;> simp [mergePass, none_b]
  · by_cases none_b : b = []
    · subst none_b
      simp [mergePass, none_a]
    · have zero := ircdStrcmp_eq_zero (clean_a none_a).byte (clean_b none_b).byte (clean_a none_a).nul (clean_b none_b).nul
      rw [mergePass, mergePass, if_neg none_b, if_neg none_a, ircdStrcmp_swap a b, ← zero]
      rcases Int.lt_trichotomy (ircdStrcmp a b) 0 with less | equal | more
      · have first : ircdStrcmp a b ≤ 0 := by omega
        have second : ¬ -ircdStrcmp a b ≤ 0 := by omega
        have differ : ircdStrcmp a b ≠ 0 := by omega
        simp [none_a, first, second, differ]
      · simp [none_a, none_b, equal]
      · have first : ¬ ircdStrcmp a b ≤ 0 := by omega
        have second : -ircdStrcmp a b ≤ 0 := by omega
        have differ : ircdStrcmp a b ≠ 0 := by omega
        simp [none_b, first, second, differ]

theorem mergeSimple_comm_iff {a b : Flags} (exclusive_a : ¬ (a .secret = true ∧ a .priv = true))
    (exclusive_b : ¬ (b .secret = true ∧ b .priv = true)) :
    (∀ f : Flag, f.simple = true → mergeSimple a b f = mergeSimple b a f) ↔
      (¬ (a .secret = true ∧ b .priv = true) ∧ ¬ (a .priv = true ∧ b .secret = true)) ∧
        a .registered = b .registered := by
  constructor
  · intro agree
    have secret := agree .secret rfl
    have priv := agree .priv rfl
    have registered := agree .registered rfl
    simp only [mergeSimple, Flag.simple] at secret priv registered
    refine ⟨?_, by simpa using registered⟩
    revert exclusive_a exclusive_b secret priv
    cases a .secret <;> cases a .priv <;> cases b .secret <;> cases b .priv <;> decide
  · rintro ⟨apart, registered⟩ f letter
    cases f with
    | priv =>
      simp only [mergeSimple, Flag.simple]
      revert exclusive_a exclusive_b apart
      cases a .secret <;> cases a .priv <;> cases b .secret <;> cases b .priv <;> decide
    | secret =>
      simp only [mergeSimple, Flag.simple]
      revert exclusive_a exclusive_b apart
      cases a .secret <;> cases a .priv <;> cases b .secret <;> cases b .priv <;> decide
    | registered => simpa [mergeSimple] using registered
    | limit => exact absurd letter (by decide)
    | burstAdded => exact absurd letter (by decide)
    | wasDelJoins => exact absurd letter (by decide)
    | _ => simp [mergeSimple, Flag.simple, Bool.or_comm]

theorem SameModes.symm {m n : Mode} (same : SameModes m n) : SameModes n m :=
  ⟨fun f letter => (same.simple f letter).symm, same.limit.symm, same.key.symm, same.apass.symm, same.upass.symm⟩

theorem SameModes.trans {k m n : Mode} (first : SameModes k m) (second : SameModes m n) : SameModes k n :=
  ⟨fun f letter => (first.simple f letter).trans (second.simple f letter), first.limit.trans second.limit,
    first.key.trans second.key, first.apass.trans second.apass, first.upass.trans second.upass⟩

theorem Mode.Valid.maybePass {m : Mode} (valid : m.Valid) : MaybePass m.key ∧ MaybePass m.apass ∧ MaybePass m.upass :=
  ⟨valid.pass valid.key (by simp), valid.pass valid.apass (by simp), valid.pass valid.upass (by simp)⟩

/-- Two servers that burst a channel to each other agree on its modes exactly where the modes
that they had can be merged. -/
theorem exchange_agrees_iff (world_a world_b : World Client) (bursting_a bursting_b : Bool) {a b : Channel Client}
    (valid_a : a.mode.Valid) (valid_b : b.mode.Valid) (rest_a rest_b : List (List Char)) :
    SameModes (receiveModes world_a bursting_a false a b.mode rest_b).mode
        (receiveModes world_b bursting_b false b a.mode rest_a).mode ↔ Mergeable a.mode b.mode := by
  have merged_a := (receiveModes_mode world_a bursting_a false a valid_b rest_b).2
  have merged_b := (receiveModes_mode world_b bursting_b false b valid_a rest_a).2
  obtain ⟨key_a, apass_a, upass_a⟩ := valid_a.maybePass
  obtain ⟨key_b, apass_b, upass_b⟩ := valid_b.maybePass
  have simple := mergeSimple_comm_iff valid_a.exclusive valid_b.exclusive
  have limit := mergeLimit_comm_iff (a.mode.mode .limit) (b.mode.mode .limit) a.mode.limit b.mode.limit
  constructor
  · intro agree
    have merged := (merged_a.symm.trans agree).trans merged_b
    obtain ⟨hidden, registered⟩ := simple.mp merged.simple
    exact ⟨hidden, registered, limit.mp merged.limit, (mergePass_comm_iff key_a key_b).mp merged.key,
      (mergePass_comm_iff apass_a apass_b).mp merged.apass, (mergePass_comm_iff upass_a upass_b).mp merged.upass⟩
  · intro mergeable
    refine (merged_a.trans ?_).trans merged_b.symm
    exact ⟨simple.mpr ⟨mergeable.hidden, mergeable.registered⟩, limit.mpr mergeable.limit,
      (mergePass_comm_iff key_a key_b).mpr mergeable.key, (mergePass_comm_iff apass_a apass_b).mpr mergeable.apass,
      (mergePass_comm_iff upass_a upass_b).mpr mergeable.upass⟩

def emptyChannel (m : Mode) : Channel Nat := ⟨7, m, [], []⟩

theorem exchange_agrees_topic :
    SameModes (receiveModes quietWorld true false (emptyChannel (plainMode .secret)) (plainMode .topicLimit) []).mode
        (receiveModes quietWorld true false (emptyChannel (plainMode .topicLimit)) (plainMode .secret) []).mode ↔
      Mergeable (plainMode .secret) (plainMode .topicLimit) :=
  @exchange_agrees_iff Nat _ quietWorld quietWorld true true (emptyChannel (plainMode .secret))
    (emptyChannel (plainMode .topicLimit)) (plainMode_valid .secret) (plainMode_valid .topicLimit) [] []

/-- `+s` on one side and `+p` on the other change places. -/
theorem secret_private_swap : (plainMode .secret).Valid ∧ (plainMode .priv).Valid ∧
    ¬ SameModes (receiveModes quietWorld true false (emptyChannel (plainMode .secret)) (plainMode .priv) []).mode
        (receiveModes quietWorld true false (emptyChannel (plainMode .priv)) (plainMode .secret) []).mode := by
  refine ⟨plainMode_valid .secret, plainMode_valid .priv, fun same => ?_⟩
  exact absurd (same.simple .secret rfl) (by decide)

end Ircd.Channels
