import Mathlib.Data.List.TakeWhile
import Ircd.Glines.Wire

/-! The parameters of a GLINE message: `ms_gline` up to the function it calls in the end.

How many parameters there are tells which is which. Where there is one behind the lastmod of a G-line that
exists, it is read as a lifetime for a trial. The trial asks for a result of zero and nothing left of the
text, where a reason is a text that is not wholly read.
-/

set_option autoImplicit false

namespace Ircd.Glines
open Ircd.Text

/-- `atoi`, also of a text that starts with blanks. -/
def atoiText (s : List Char) : Int := (atol s).bmod (2 ^ 32)

/-- Where `strtoul` stops: before the first character that is no digit, or at the start without digits. -/
def strtoulEnd (s : List Char) : List Char :=
  let digits :=
    match s.dropWhile fun c => c = ' ' || '\t' ≤ c && c ≤ '\r' with
    | '-' :: rest => rest
    | '+' :: rest => rest
    | rest => rest
  if isDigit (peek digits) then digits.dropWhile isDigit else s

/-- An `unsigned long` that is assigned to a `time_t`. -/
def asLong (bits : Nat) : Int := (bits : Int).bmod (2 ^ 64)

/-- What `ms_gline` asks the rest of the server: the time, whether a numeric is that of this server, and
the G-lines of a mask. -/
structure GlineSite where
  now : Int
  findNServer : List Char → Option Bool
  findGlobal : List Char → Option Gline
  findLocal : List Char → Option Gline

inductive GlineOutcome where
  | needMoreParams | noSuchServer | noSuchGline | ignored
  | forwardState (activate operforce : Bool) (mask : List Char)
  | forwardLocal (activate operforce : Bool) (mask : List Char) (expire : Int) (reason : CString)
  | addLocal (mask : List Char) (reason : CString) (expire : Int) (flags : Flags)
  | destroyLocal (gline : Gline)
  | modify (gline : Gline) (change : Change)
  | propagate (activate : Bool) (mask : List Char) (lastmod : Int)
  | add (activate : Bool) (mask : List Char) (change : Change)

def noReason : CString := ⟨"No reason".toList, by decide +kernel, by decide +kernel⟩

/-- The times, the reason and the flags that are read of the parameters behind the mask of a global G-line.
`exists` says whether there is one. -/
def readFields (now : Int) (known : Bool) (action : GlineAction) (flags : Flags) (params : List CString) : Change :=
  let none_yet : Change := ⟨action, noReason, 0, 0, 0, flags⟩
  match params with
  | [] => none_yet
  | [lastmod] => if action = .modify then none_yet else { none_yet with lastmod := atoiText lastmod.chars }
  | expire :: lastmod :: more =>
    let expire := absExpire now (atoiText expire.chars)
    let timed : Change := { none_yet with
      expire := expire
      lastmod := atoiText lastmod.chars
      flags := { flags with expire := true } }
    match more with
    | [] => timed
    | [param] =>
      let lifetime := asLong (strtoul param.chars)
      if !known || lifetime = 0 && strtoulEnd param.chars = [] then
        { timed with reason := param, flags := { timed.flags with reason := true } }
      else if lifetime ≠ 0 then { timed with lifetime := lifetime, flags := { timed.flags with lifetime := true } }
      else timed
    | lifetime :: reason :: rest =>
      { timed with
        lifetime := atoiText lifetime.chars
        reason := (reason :: rest).getLast (List.cons_ne_nil reason rest)
        flags := { timed.flags with lifetime := true, reason := true } }

/-- The part of `ms_gline` about a G-line of a server; `me` says whether it is this one. -/
def localGline (site : GlineSite) (me : Bool) (action : GlineAction) (flags : Flags) (mask : List Char)
    (params : List CString) : GlineOutcome :=
  let agline := if me then site.findLocal mask else none
  if action = .activate ∨ action = .modify then
    match params with
    | expire :: second :: rest =>
      let expire := absExpire site.now (atoiText expire.chars)
      let reason := (second :: rest).getLast (List.cons_ne_nil second rest)
      if me then if agline.isSome then .ignored else .addLocal mask reason expire flags
      else .forwardLocal true flags.operforce mask expire reason
    | _ => .needMoreParams
  else if me then
    match agline with
    | none => .noSuchGline
    | some gline => .destroyLocal gline
  else .forwardLocal false flags.operforce mask 0 noReason

/-- The part of `ms_gline` about a global G-line. -/
def globalGline (site : GlineSite) (action : GlineAction) (flags : Flags) (mask : List Char)
    (params : List CString) : GlineOutcome :=
  let agline := site.findGlobal mask
  let action := if agline.isNone ∧ action = .modify then .activate else action
  if action.isLocal then
    match agline with
    | none => .noSuchGline
    | some gline =>
      if gline.lastmod = 0 then .needMoreParams
      else .modify gline ⟨action, noReason, 0, gline.lastmod, 0, flags⟩
  else
    let change := readFields site.now agline.isSome action flags params
    if change.lastmod = 0 then .needMoreParams
    else
      match agline with
      | some gline => .modify gline change
      | none =>
        if change.expire = 0 then .propagate (action = .activate) mask change.lastmod
        else .add (action = .activate) mask change

/-- `ms_gline`, with the parameters behind the prefix; `server` says whether a server stands there. -/
def msGlineMessage (site : GlineSite) (server : Bool) (parv : List CString) : GlineOutcome :=
  match parv with
  | target :: mask :: params =>
    let operforce : Bool := peek mask.chars = '!'
    let flags : Flags := { force := server, operforce := operforce }
    let (action, mask) := maskAction (if operforce then mask.chars.drop 1 else mask.chars)
    if mask = [] then .needMoreParams
    else if action.isLocal then
      match site.findNServer target.chars with
      | none => .noSuchServer
      | some false => .forwardState (action = .localActivate) operforce mask
      | some true => globalGline site action flags mask params
    else if target.chars = ['*'] then globalGline site action flags mask params
    else
      match site.findNServer target.chars with
      | none => .noSuchServer
      | some me => localGline site me action flags mask params
  | _ => .needMoreParams

structure TimeText where
  text : CString
  some_digit : text.chars ≠ []
  digits : ∀ c ∈ text.chars, isDigit c = true

def TimeText.value (t : TimeText) : Nat := readNumber 0 t.text.chars

inductive GlineFields where
  | lastmodOnly (lastmod : TimeText)
  | timed (expire lastmod : TimeText)
  | oneMore (expire lastmod : TimeText) (param : CString)
  | both (expire lastmod lifetime : TimeText) (reason : CString)

def opText : Op → List Char
  | .plus => ['+']
  | .minus => ['-']
  | .none => []

/-- A message of a server about a global G-line. A mask without a sign does not start like one, and a
lastmod alone goes with a change of the state. -/
structure GlineMessage where
  operforce : Bool
  op : Op
  mask : CString
  fields : GlineFields
  some_mask : mask.chars ≠ []
  unsigned : op = .none → peek mask.chars ∉ ['+', '-', '<', '>'] ∧ (operforce = false → peek mask.chars ≠ '!')
  state : ∀ lastmod, fields = .lastmodOnly lastmod → op ≠ .none

def GlineMessage.maskText (m : GlineMessage) : CString where
  chars := (if m.operforce then ['!'] else []) ++ opText m.op ++ m.mask.chars
  nul_free := by
    have clean := m.mask.nul_free
    have visible : nul ≠ '!' ∧ nul ≠ '+' ∧ nul ≠ '-' := by decide
    cases m.operforce <;> cases m.op <;> simp [opText, clean, visible]
  byte := by
    have bytes := m.mask.byte
    have visible : '!'.toNat < 256 ∧ '+'.toNat < 256 ∧ '-'.toNat < 256 := by decide
    cases m.operforce <;> cases m.op <;> simpa [opText, visible] using bytes

def GlineFields.params : GlineFields → List CString
  | .lastmodOnly lastmod => [lastmod.text]
  | .timed expire lastmod => [expire.text, lastmod.text]
  | .oneMore expire lastmod param => [expire.text, lastmod.text, param]
  | .both expire lastmod lifetime reason => [expire.text, lastmod.text, lifetime.text, reason]

theorem star_nul_free : nul ∉ ['*'] := by decide

theorem star_byte : ∀ c ∈ ['*'], c.toNat < 256 := by decide

def starTarget : CString := ⟨['*'], star_nul_free, star_byte⟩

def GlineMessage.parv (m : GlineMessage) : List CString := starTarget :: m.maskText :: m.fields.params

def opAction : Op → GlineAction
  | .plus => .activate
  | .minus => .deactivate
  | .none => .modify

def isDecimal (param : CString) : Bool := param.chars ≠ [] && param.chars.all isDigit

def GlineFields.asked (now : Int) (action : GlineAction) (flags : Flags) : GlineFields → Change
  | .lastmodOnly lastmod => ⟨action, noReason, 0, lastmod.value, 0, flags⟩
  | .timed expire lastmod =>
    ⟨action, noReason, absExpire now expire.value, lastmod.value, 0, { flags with expire := true }⟩
  | .oneMore expire lastmod param =>
    if isDecimal param then
      ⟨action, noReason, absExpire now expire.value, lastmod.value, readNumber 0 param.chars,
        { flags with expire := true, lifetime := true }⟩
    else
      ⟨action, param, absExpire now expire.value, lastmod.value, 0, { flags with expire := true, reason := true }⟩
  | .both expire lastmod lifetime reason =>
    ⟨action, reason, absExpire now expire.value, lastmod.value, lifetime.value,
      { flags with expire := true, lifetime := true, reason := true }⟩

def GlineMessage.asked (now : Int) (server : Bool) (m : GlineMessage) : Change :=
  m.fields.asked now (opAction m.op) { force := server, operforce := m.operforce }

def TimeText.Read (t : TimeText) : Prop := t.value < 2 ^ 31

def TimeText.ReadExpire (now : Int) (t : TimeText) : Prop :=
  absExpire now (atoiText t.text.chars) = absExpire now t.value

def ReadParam (param : CString) : Prop :=
  if isDecimal param then 0 < readNumber 0 param.chars ∧ readNumber 0 param.chars < 2 ^ 63
  else strtoul param.chars = 0 ∧ strtoulEnd param.chars = []

def GlineFields.Understood (now : Int) : GlineFields → Prop
  | .lastmodOnly lastmod => lastmod.Read ∧ 0 < lastmod.value
  | .timed expire lastmod => expire.ReadExpire now ∧ lastmod.Read ∧ 0 < lastmod.value
  | .oneMore expire lastmod param => expire.ReadExpire now ∧ lastmod.Read ∧ 0 < lastmod.value ∧ ReadParam param
  | .both expire lastmod lifetime _ => expire.ReadExpire now ∧ lastmod.Read ∧ 0 < lastmod.value ∧ lifetime.Read

section
variable {s : List Char} (digits : ∀ c ∈ s, isDigit c = true)
include digits

theorem digit_head {c : Char} {rest : List Char} (shape : s = c :: rest) : c ≠ '-' ∧ c ≠ '+' := by
  have digit := digits c (shape ▸ List.mem_cons_self)
  constructor
  · rintro rfl
    exact absurd digit (by decide)
  · rintro rfl
    exact absurd digit (by decide)

theorem dropWhile_blank_digits : (s.dropWhile fun c => c = ' ' || '\t' ≤ c && c ≤ '\r') = s := by
  cases s with
  | nil => rfl
  | cons c rest =>
    refine List.dropWhile_cons_of_neg ?_
    rw [digit_not_blank (digits c List.mem_cons_self)]
    exact Bool.false_ne_true

theorem atol_digits : atol s = (min (readNumber 0 s) (2 ^ 63 - 1) : Nat) := by
  rw [atol, dropWhile_blank_digits digits]
  split
  · exact absurd rfl (digit_head digits rfl).1
  · exact absurd rfl (digit_head digits rfl).2
  · rfl

theorem strtoul_digits : strtoul s = min (readNumber 0 s) (2 ^ 64 - 1) := by
  rw [strtoul, dropWhile_blank_digits digits]
  split
  · exact absurd rfl (digit_head digits rfl).1
  · exact absurd rfl (digit_head digits rfl).2
  · rfl

theorem strtoulEnd_digits : strtoulEnd s = [] := by
  unfold strtoulEnd
  rw [dropWhile_blank_digits digits]
  split
  · exact absurd rfl (digit_head digits rfl).1
  · exact absurd rfl (digit_head digits rfl).2
  · cases s with
    | nil => rfl
    | cons c rest =>
      dsimp only
      rw [peek_cons, if_pos (digits c List.mem_cons_self)]
      exact List.dropWhile_eq_nil_iff.mpr digits

end

theorem atoiText_eq (t : TimeText) : atoiText t.text.chars = ((min t.value (2 ^ 63 - 1) : Nat) : Int).bmod (2 ^ 32) := by
  rw [atoiText, atol_digits t.digits]
  rfl

theorem atoiText_value (t : TimeText) : atoiText t.text.chars = t.value ↔ t.Read := by
  have low : -2147483648 ≤ ((min t.value (2 ^ 63 - 1) : Nat) : Int).bmod (2 ^ 32) := Int.le_bmod (by decide)
  have high : ((min t.value (2 ^ 63 - 1) : Nat) : Int).bmod (2 ^ 32) < 2147483648 := Int.bmod_lt (by decide)
  have same : ((min t.value (2 ^ 63 - 1) : Nat) : Int).bmod (2 ^ 32) % 4294967296 =
      ((min t.value (2 ^ 63 - 1) : Nat) : Int) % 4294967296 := Int.bmod_emod
  rw [atoiText_eq, TimeText.Read]
  omega

theorem maskAction_plain {mask : List Char} (plain : peek mask ∉ ['+', '-', '<', '>']) :
    maskAction mask = (.modify, mask) := by
  unfold maskAction
  split
  · exact absurd (by simp [peek_cons]) plain
  · exact absurd (by simp [peek_cons]) plain
  · exact absurd (by simp [peek_cons]) plain
  · exact absurd (by simp [peek_cons]) plain
  · rfl

theorem maskAction_opText (m : GlineMessage) :
    maskAction (opText m.op ++ m.mask.chars) = (opAction m.op, m.mask.chars) := by
  cases op : m.op with
  | plus => rfl
  | minus => rfl
  | none => exact maskAction_plain (m.unsigned op).1

theorem peek_opText (m : GlineMessage) (unforced : m.operforce = false) :
    peek (opText m.op ++ m.mask.chars) ≠ '!' := by
  cases op : m.op with
  | plus => exact (by decide : '+' ≠ '!')
  | minus => exact (by decide : '-' ≠ '!')
  | none => exact (m.unsigned op).2 unforced

theorem maskText_read (m : GlineMessage) :
    (decide (peek m.maskText.chars = '!') = m.operforce) ∧
    (if decide (peek m.maskText.chars = '!') = true then m.maskText.chars.drop 1 else m.maskText.chars) =
      opText m.op ++ m.mask.chars := by
  have shape : m.maskText.chars = (if m.operforce then ['!'] else []) ++ opText m.op ++ m.mask.chars := rfl
  cases forced : m.operforce with
  | false =>
    have text : m.maskText.chars = opText m.op ++ m.mask.chars := by simpa [forced] using shape
    have other := peek_opText m forced
    rw [text, decide_eq_false other]
    exact ⟨rfl, rfl⟩
  | true =>
    have text : m.maskText.chars = '!' :: (opText m.op ++ m.mask.chars) := by simpa [forced] using shape
    rw [text]
    exact ⟨rfl, rfl⟩

theorem opAction_global (op : Op) : (opAction op).isLocal = false := by cases op <;> rfl

/-- For a G-line that exists the handler ends in `gline_modify`, or for the want of a lastmod. -/
theorem msGlineMessage_known {site : GlineSite} {server : Bool} {m : GlineMessage} {g : Gline}
    (known : site.findGlobal m.mask.chars = some g) :
    msGlineMessage site server m.parv =
      (let change := readFields site.now true (opAction m.op)
        { force := server, operforce := m.operforce } m.fields.params
       if change.lastmod = 0 then .needMoreParams else .modify g change) := by
  obtain ⟨forced, text⟩ := maskText_read m
  have star : starTarget.chars = ['*'] := rfl
  rw [GlineMessage.parv, msGlineMessage]
  dsimp only
  rw [text, forced, maskAction_opText]
  simp only [if_neg m.some_mask, opAction_global, Bool.false_eq_true, if_false, star, if_true, globalGline, known,
    Option.isNone_some, false_and, Option.isSome_some]

theorem asLong_bounds (n : Nat) :
    -9223372036854775808 ≤ asLong n ∧ asLong n < 9223372036854775808 ∧
      asLong n % 18446744073709551616 = n % 18446744073709551616 :=
  ⟨Int.le_bmod (by decide), Int.bmod_lt (by decide), Int.bmod_emod⟩

theorem strtoul_lt (s : List Char) : strtoul s < 18446744073709551616 := by
  unfold strtoul
  split <;> omega

theorem asLong_zero (param : CString) : asLong (strtoul param.chars) = 0 ↔ strtoul param.chars = 0 := by
  have bounds := asLong_bounds (strtoul param.chars)
  have small := strtoul_lt param.chars
  omega

theorem asLong_value {n : Nat} : asLong (min n (2 ^ 64 - 1)) = n ↔ n < 2 ^ 63 := by
  have bounds := asLong_bounds (min n (2 ^ 64 - 1))
  omega

theorem readFields_oneMore {now : Int} {action : GlineAction} {flags : Flags} (expire lastmod : TimeText)
    (param : CString) (bare : flags.lifetime = false ∧ flags.reason = false) :
    readFields now true action flags [expire.text, lastmod.text, param] =
        (GlineFields.oneMore expire lastmod param).asked now action flags ↔
      expire.ReadExpire now ∧ lastmod.Read ∧ ReadParam param := by
  have trial := asLong_zero param
  by_cases decimal : isDecimal param = true
  · have digits : ∀ c ∈ param.chars, isDigit c = true := by
      simpa [isDecimal] using (Bool.and_eq_true_iff.mp decimal).2
    have read := strtoul_digits digits
    have value := asLong_value (n := readNumber 0 param.chars)
    rw [← read] at value
    simp only [readFields, GlineFields.asked, ReadParam, decimal, if_true, Bool.not_true, Bool.false_or,
      strtoulEnd_digits digits, decide_true, Bool.and_true, decide_eq_true_eq]
    by_cases zero : asLong (strtoul param.chars) = 0
    · -- A zero lifetime becomes a reason.
      rw [if_pos zero]
      have none : readNumber 0 param.chars = 0 := by
        have := trial.mp zero
        omega
      simp [bare, none]
    · rw [if_neg zero, if_pos zero]
      have some : 0 < readNumber 0 param.chars := by
        by_contra none
        have : strtoul param.chars = 0 := by omega
        exact zero (trial.mpr this)
      simp only [Change.mk.injEq, some, true_and, and_true, atoiText_value, TimeText.ReadExpire, value]
  · simp only [readFields, GlineFields.asked, ReadParam, decimal, Bool.not_true, Bool.false_or, asLong_zero,
      Bool.and_eq_true, decide_eq_true_eq, Bool.false_eq_true, if_false]
    by_cases reason : strtoul param.chars = 0 ∧ strtoulEnd param.chars = []
    · rw [if_pos reason]
      simp only [Change.mk.injEq, true_and, and_true, atoiText_value, TimeText.ReadExpire, bare]
      exact ⟨fun ⟨expires, dated⟩ => ⟨expires, dated, reason⟩, fun ⟨expires, dated, _⟩ => ⟨expires, dated⟩⟩
    · rw [if_neg reason]
      simp only [reason, and_false, iff_false]
      -- Without the flag of a reason the change is not the one that is asked for.
      split <;> simp [bare]

theorem readFields_asked {now : Int} (m : GlineMessage) (server : Bool) :
    readFields now true (opAction m.op) { force := server, operforce := m.operforce } m.fields.params =
          m.asked now server ∧ (m.asked now server).lastmod ≠ 0 ↔ m.fields.Understood now := by
  have dated (time : Nat) : (time : Int) ≠ 0 ↔ 0 < time := by omega
  rw [GlineMessage.asked]
  cases form : m.fields with
  | lastmodOnly lastmod =>
    have changing : opAction m.op ≠ .modify := by
      have := m.state lastmod form
      revert this
      cases m.op <;> simp [opAction]
    simp only [GlineFields.params, readFields, changing, if_false, GlineFields.asked, Change.mk.injEq, true_and,
      and_true, atoiText_value, GlineFields.Understood, dated]
  | timed expire lastmod =>
    simp only [GlineFields.params, readFields, GlineFields.asked, Change.mk.injEq, true_and, and_true,
      atoiText_value, GlineFields.Understood, TimeText.ReadExpire, dated, and_assoc]
  | oneMore expire lastmod param =>
    rw [GlineFields.params, readFields_oneMore expire lastmod param ⟨rfl, rfl⟩, GlineFields.Understood]
    have lastmod_asked : ((GlineFields.oneMore expire lastmod param).asked now (opAction m.op)
        { force := server, operforce := m.operforce }).lastmod = lastmod.value := by
      rw [GlineFields.asked]
      split <;> rfl
    rw [lastmod_asked, dated]
    exact ⟨fun ⟨⟨expires, reads, trial⟩, stamped⟩ => ⟨expires, reads, stamped, trial⟩,
      fun ⟨expires, reads, stamped, trial⟩ => ⟨⟨expires, reads, trial⟩, stamped⟩⟩
  | both expire lastmod lifetime reason =>
    simp only [GlineFields.params, readFields, GlineFields.asked, Change.mk.injEq, true_and, and_true,
      atoiText_value, GlineFields.Understood, TimeText.ReadExpire, List.getLast_singleton, dated]
    exact ⟨fun ⟨⟨expires, reads, lives⟩, stamped⟩ => ⟨expires, reads, stamped, lives⟩,
      fun ⟨expires, reads, stamped, lives⟩ => ⟨⟨expires, reads, lives⟩, stamped⟩⟩

/-- A message about a G-line that exists comes to the change it asks for exactly where its times fit, it has
a lastmod, and one parameter more is a lifetime that is not zero or a reason that the trial reads to its end as
a zero. -/
theorem fields_asked_iff (site : GlineSite) (server : Bool) (m : GlineMessage) (g : Gline)
    (known : site.findGlobal m.mask.chars = some g) :
    msGlineMessage site server m.parv = .modify g (m.asked site.now server) ↔ m.fields.Understood site.now := by
  rw [msGlineMessage_known known, ← readFields_asked m server]
  dsimp only
  split
  case isTrue none =>
    constructor
    · intro impossible
      cases impossible
    · rintro ⟨same, some⟩
      exact absurd (same ▸ none) some
  case isFalse some =>
    constructor
    · intro same
      injection same with _ same
      exact ⟨same, same ▸ some⟩
    · rintro ⟨same, _⟩
      rw [same]

def decimalTime (s : List Char) (some_digit : s ≠ []) (digits : ∀ c ∈ s, isDigit c = true)
    (visible : ∀ c ∈ s, c ≠ nul ∧ c.toNat < 256) : TimeText where
  text := ⟨s, fun ends => (visible nul ends).1 rfl, fun c mem => (visible c mem).2⟩
  some_digit := some_digit
  digits := digits

def spamHost : CString := ⟨"*@host".toList, by decide +kernel, by decide +kernel⟩
def spamReason : CString := ⟨"spam".toList, by decide +kernel, by decide +kernel⟩
def lastmodNine : TimeText := decimalTime ['9'] (by decide) (by decide) (by decide)
def hourTime : TimeText := decimalTime "3600".toList (by decide +kernel) (by decide +kernel) (by decide +kernel)

def spamGline : Gline where
  active := true
  state := .global
  expire := 1000
  lastmod := 5
  lifetime := 2000
  reason := noReason

def spamSite : GlineSite where
  now := 10
  findNServer _ := none
  findGlobal mask := if mask = spamHost.chars then some spamGline else none
  findLocal _ := none

def spamMessage (fields : GlineFields) : GlineMessage where
  operforce := false
  op := .plus
  mask := spamHost
  fields := fields
  some_mask := by decide +kernel
  unsigned := by decide
  state _ _ := by decide

@[simp] theorem spamSite_finds (fields : GlineFields) :
    spamSite.findGlobal (spamMessage fields).mask.chars = some spamGline :=
  @if_pos (spamHost.chars = spamHost.chars) _ rfl _ (some spamGline) none

theorem fields_asked_spam :
    msGlineMessage spamSite true (spamMessage (.both hourTime lastmodNine hourTime spamReason)).parv =
      .modify spamGline ((spamMessage (.both hourTime lastmodNine hourTime spamReason)).asked 10 true) :=
  (fields_asked_iff spamSite true (spamMessage (.both hourTime lastmodNine hourTime spamReason)) spamGline
    (spamSite_finds _)).mpr
      ⟨rfl, (by decide +kernel : lastmodNine.value < 2 ^ 31), by decide +kernel,
        (by decide +kernel : hourTime.value < 2 ^ 31)⟩

/-- `* +*@host 3600 9 :spam` loses its reason. -/
theorem reason_dropped :
    spamSite.findGlobal (spamMessage (.oneMore hourTime lastmodNine spamReason)).mask.chars = some spamGline ∧
    msGlineMessage spamSite true (spamMessage (.oneMore hourTime lastmodNine spamReason)).parv ≠
      .modify spamGline ((spamMessage (.oneMore hourTime lastmodNine spamReason)).asked 10 true) := by
  have unread : ¬ ReadParam spamReason := by
    unfold ReadParam
    decide +kernel
  refine ⟨spamSite_finds _, ?_⟩
  rw [msGlineMessage_known (spamSite_finds _)]
  dsimp only
  split
  · exact GlineOutcome.noConfusion
  · intro same
    injection same with _ same
    exact unread ((readFields_oneMore hourTime lastmodNine spamReason ⟨rfl, rfl⟩).mp same).2.2

end Ircd.Glines
