import Ircd.Ddb.Resident

/-! Looking up nick and operator records: `ddb_nick_find` and `ddb_opers_find`.

Both decode into one static structure and take it as it is when it has the right name, so
that a record that has changed since is answered from the old text. The local variable
`json` they read the fields from is never assigned: what it refers to is an argument here,
like the structure that `malloc` gives the first time.
-/

set_option autoImplicit false

namespace Ircd.Ddb
open Ircd.Library Ircd.Match Ircd.Text

structure JsonC (J : Type) where
  objectGetEx : J → List Char → Option J
  getString : J → CString
  getInt : J → Int

structure DdbNick where
  name : Option CString
  password : Option CString
  certificate : Option CString
  flags : Int
  automodes : Option CString
  reason : Option CString

structure DdbOperator where
  nick : Option CString
  modes : Option CString
  privsFlags : Nat
  privs : List (Fin 38)

/-- `privsFlagList`: the privileges in the order of the enumeration, one bit for each. -/
def privsFlagList : List (Fin 38 × Nat) := (List.finRange 38).map fun priv => (priv, 2 ^ priv.val)

section
variable {J : Type} (lib : JsonC J)

def stringField (json : J) (name : List Char) : Option CString := (lib.objectGetEx json name).map lib.getString

def decodeNick (key : CString) (json : J) : DdbNick where
  name := some key
  password := stringField lib json ['p', 'a', 's', 's']
  certificate := stringField lib json ['c', 'e', 'r', 't', 'i', 'f', 'i', 'c', 'a', 't', 'e']
  flags := ((lib.objectGetEx json ['f', 'l', 'a', 'g', 's']).map lib.getInt).getD 0
  automodes := stringField lib json ['a', 'u', 't', 'o', 'm', 'o', 'd', 'e', 's']
  reason := stringField lib json ['r', 'e', 'a', 's', 'o', 'n']

/-- The fields `ddb_opers_get` fills in: the flags are read but not stored. -/
def decodeOper (key : CString) (json : J) : DdbOperator :=
  let privsFlags := 0
  { nick := some key
    modes := stringField lib json ['m', 'o', 'd', 'e', 's']
    privsFlags := privsFlags
    privs := (privsFlagList.filter fun entry => privsFlags &&& entry.2 ≠ 0).map Prod.fst }

/-- What a call finds in memory it has not written: in `json`, and in a structure that
`malloc` has just given. -/
structure Unset (J R : Type) where
  json : J
  malloced : R

/-- The common part of `ddb_nick_get` and `ddb_opers_get`: the structure in use, or the one
decoded anew. -/
def ddbGet {R : Type} (name : R → Option CString) (decode : CString → J → R) (cached : Option R) (unset : Unset J R)
    (key : CString) (cache : Bool) : R :=
  let ptr := cached.getD unset.malloced
  if cache && (name ptr).any (·.foldEq key) then ptr else decode key unset.json

def ddbNickGet : Option DdbNick → Unset J DdbNick → CString → Bool → DdbNick := ddbGet DdbNick.name (decodeNick lib)

def ddbOpersGet : Option DdbOperator → Unset J DdbOperator → CString → Bool → DdbOperator :=
  ddbGet DdbOperator.nick (decodeOper lib)

end

structure Lookups where
  tables : Tables := {}
  ddbnptr : Option DdbNick := none
  ddboptr : Option DdbOperator := none

section
variable {J : Type} (lib : JsonC J) (crc32hash : Nat → Nat) (me : CString)

/-- The common part of `ddb_nick_find` and `ddb_opers_find`, with the buffer of
`ddb_find_key`: the answer, and the static structure after it. -/
def ddbFind {R : Type} (name : R → Option CString) (decode : CString → J → R) (t : Tables) (buffer : List Char)
    (table : Char) (cached : Option R) (unset : Unset J R) (nick : CString) : Option R × Option R :=
  match ddbFindKey crc32hash t buffer table nick with
  | some ddb =>
    let ptr := ddbGet name decode cached unset ddb.key true
    (some ptr, some ptr)
  | none => (none, cached)

def ddbNickFind (s : Lookups) (buffer : List Char) (unset : Unset J DdbNick) (nick : CString) :
    Option DdbNick × Lookups :=
  let (answer, ddbnptr) := ddbFind crc32hash DdbNick.name (decodeNick lib) s.tables buffer 'n' s.ddbnptr unset nick
  (answer, { s with ddbnptr := ddbnptr })

def ddbOpersFind (s : Lookups) (buffer : List Char) (unset : Unset J DdbOperator) (nick : CString) :
    Option DdbOperator × Lookups :=
  let (answer, ddboptr) :=
    ddbFind crc32hash DdbOperator.nick (decodeOper lib) s.tables buffer 'o' s.ddboptr unset nick
  (answer, { s with ddboptr := ddboptr })

inductive LookupCall (J : Type) where
  /-- A register for table `n`; `online` says whether the nick is in use by a client of ours. -/
  | nickRegister (r : Register) (online : Bool) (unset : Unset J DdbNick)
  /-- A register for table `o`; `online` says whether the nick is in use by an identified client of ours. -/
  | opersRegister (r : Register) (online : Bool) (unset : Unset J DdbOperator)
  | nickFind (buffer : List Char) (nick : CString) (unset : Unset J DdbNick)
  | opersFind (buffer : List Char) (nick : CString) (unset : Unset J DdbOperator)

def decodes (me : CString) (table : Char) (r : Register) (online : Bool) : Bool :=
  keeps me table r && online && r.content.isSome

/-- `ddb_new_register` with the part of the events that decodes the record. -/
def lookupStep (s : Lookups) : LookupCall J → Lookups
  | .nickRegister r online unset =>
    { s with
      tables := step crc32hash me s.tables (.newRegister 'n' r)
      ddbnptr := if decodes me 'n' r online then some (ddbNickGet lib s.ddbnptr unset r.key false) else s.ddbnptr }
  | .opersRegister r online unset =>
    { s with
      tables := step crc32hash me s.tables (.newRegister 'o' r)
      ddboptr := if decodes me 'o' r online then some (ddbOpersGet lib s.ddboptr unset r.key false) else s.ddboptr }
  | .nickFind buffer nick unset => (ddbNickFind lib crc32hash s buffer unset nick).2
  | .opersFind buffer nick unset => (ddbOpersFind lib crc32hash s buffer unset nick).2

def Contents.lookupStep (c : Contents) : LookupCall J → Contents
  | .nickRegister r _ _ => c.step me (.newRegister 'n' r)
  | .opersRegister r _ _ => c.step me (.newRegister 'o' r)
  | _ => c

/-- The states reached by calls that all meet a condition, with the contents of the tables. -/
inductive LookupRun (meets : Lookups → Contents → LookupCall J → Prop) : Lookups → Contents → Prop
  | init : LookupRun meets {} fun _ _ => none
  | call {s : Lookups} {c : Contents} {call : LookupCall J} (run : LookupRun meets s c) (met : meets s c call) :
      LookupRun meets (lookupStep lib crc32hash me s call) (c.lookupStep me call)

def Unset.right {R : Type} (parse : CString → J) (name : R → Option CString) (cached : Option R) (content : CString)
    (unset : Unset J R) : Prop :=
  unset.json = parse content ∧ (cached = none → name unset.malloced = none)

/-- The record `content` of a key is not held in an older form. -/
def upToDate {R : Type} (parse : CString → J) (name : R → Option CString) (decode : CString → J → R)
    (cached : Option R) (key content : CString) : Prop :=
  ∀ ptr n, cached = some ptr → name ptr = some n → n.foldEq key = true → ptr = decode (lower key) (parse content)

/-- A register decoded at once is in lower case and found parsed; one that is not decoded does
not change the record the static structure was filled from. -/
def registerFresh {R : Type} (parse : CString → J) (name : R → Option CString) (decode : CString → J → R)
    (cached : Option R) (table : Char) (r : Register) (online : Bool) (unset : Unset J R) : Prop :=
  keeps me table r → ∀ content, r.content = some content →
    if online then unset.right parse name cached content ∧ lower r.key = r.key
    else upToDate parse name decode cached r.key content

variable (parse : CString → J)

def LookupCall.fresh (s : Lookups) (c : Contents) : LookupCall J → Prop
  | .nickRegister r online unset =>
    (Call.newRegister 'n' r).storable me s.tables ∧
      registerFresh me parse DdbNick.name (decodeNick lib) s.ddbnptr 'n' r online unset
  | .opersRegister r online unset =>
    (Call.newRegister 'o' r).storable me s.tables ∧
      registerFresh me parse DdbOperator.nick (decodeOper lib) s.ddboptr 'o' r online unset
  | .nickFind _ nick unset =>
    ∀ content, c 'n' (lower nick) = some content → unset.right parse DdbNick.name s.ddbnptr content
  | .opersFind _ nick unset =>
    ∀ content, c 'o' (lower nick) = some content → unset.right parse DdbOperator.nick s.ddboptr content

end

section
variable {J R : Type} {parse : CString → J} {name : R → Option CString} {decode : CString → J → R}

variable (parse name decode) in
def Coherent (cached : Option R) (c : CString → Option CString) : Prop :=
  ∀ ptr n content, cached = some ptr → name ptr = some n → c (lower n) = some content →
    ptr = decode (lower n) (parse content)

theorem foldEq_iff_lower {a b : CString} : a.foldEq b = true ↔ lower a = lower b := by
  rw [CString.foldEq_iff]
  constructor
  · intro folded
    unfold lower
    simp only [folded]
  · intro same
    exact congrArg CString.chars same

theorem coherent_decode (named : ∀ key json, name (decode key json) = some key) {c : CString → Option CString}
    {key content : CString} (lower_key : lower key = key) (record : c key = some content) :
    Coherent parse name decode (some (decode key (parse content))) c := by
  rintro ptr n content' held name_ptr record'
  cases held
  rw [named] at name_ptr
  cases name_ptr
  rw [lower_key, record] at record'
  cases record'
  rw [lower_key]

theorem ddbGet_record {cached : Option R} {c : CString → Option CString} {unset : Unset J R} {key content : CString}
    (coherent : Coherent parse name decode cached c) (lower_key : lower key = key) (record : c key = some content)
    (right : unset.right parse name cached content) :
    ddbGet name decode cached unset key true = decode key (parse content) := by
  unfold ddbGet
  simp only [Bool.true_and]
  by_cases hit : ((name (cached.getD unset.malloced)).any fun n => n.foldEq key) = true
  · rw [if_pos hit]
    obtain ⟨n, name_ptr, same⟩ := (Option.any_eq_true _ _).mp hit
    cases held : cached with
    | none =>
      rw [held, Option.getD_none, right.2 held] at name_ptr
      cases name_ptr
    | some ptr =>
      rw [held, Option.getD_some] at name_ptr
      have lower_n : lower n = key := (foldEq_iff_lower.mp same).trans lower_key
      rw [Option.getD_some, coherent ptr n content held name_ptr (lower_n ▸ record), lower_n]
  · rw [if_neg hit, right.1]

theorem Coherent.register (named : ∀ key json, name (decode key json) = some key) {cached : Option R} {c : Contents}
    {me : CString} {table : Char} {r : Register} {online : Bool} {unset : Unset J R}
    (coherent : Coherent parse name decode cached (c table))
    (fresh : registerFresh me parse name decode cached table r online unset) :
    Coherent parse name decode
      (if decodes me table r online then some (ddbGet name decode cached unset r.key false) else cached)
      (c.step me (.newRegister table r) table) := by
  simp only [Contents.step]
  cases kept : keeps me table r with
  | false => simpa [decodes, kept] using coherent
  | true =>
    rw [if_pos rfl, Function.update_self]
    cases stored : r.content with
    | none =>
      -- A deletion takes the record away and leaves the structure alone.
      simp only [decodes, stored, Option.isSome_none, Bool.and_false, Bool.false_eq_true, if_false]
      intro ptr n content held name_ptr record
      by_cases same : lower n = lower r.key
      · rw [same, Function.update_self] at record
        cases record
      · rw [Function.update_of_ne same] at record
        exact coherent ptr n content held name_ptr record
    | some content =>
      have condition := fresh kept content stored
      cases online with
      | true =>
        obtain ⟨⟨json, -⟩, lower_key⟩ := condition
        simp only [decodes, kept, stored, Option.isSome_some, Bool.and_true, if_true, ddbGet, Bool.false_and,
          Bool.false_eq_true, if_false, json]
        exact coherent_decode named lower_key (by rw [lower_key, Function.update_self])
      | false =>
        simp only [decodes, Bool.and_false, Bool.false_and, Bool.false_eq_true, if_false]
        intro ptr n content' held name_ptr record
        by_cases same : lower n = lower r.key
        · rw [same, Function.update_self] at record
          cases record
          rw [same]
          exact condition ptr n held name_ptr (foldEq_iff_lower.mpr same)
        · rw [Function.update_of_ne same] at record
          exact coherent ptr n content' held name_ptr record

end

section
variable {J : Type} {lib : JsonC J} {crc32hash : Nat → Nat} {me : CString} {parse : CString → J}

variable (lib crc32hash parse) in
structure Current (s : Lookups) (c : Contents) : Prop where
  sound : Sound crc32hash s.tables c
  nicks : Coherent parse DdbNick.name (decodeNick lib) s.ddbnptr (c 'n')
  opers : Coherent parse DdbOperator.nick (decodeOper lib) s.ddboptr (c 'o')

theorem findKey_record {t : Tables} {c : Contents} (sound : Sound crc32hash t c) {buffer : List Char} {table : Char}
    {nick : CString} {ddb : Entry} (found : ddbFindKey crc32hash t buffer table nick = some ddb) :
    ddb.key = lower nick ∧ c table (lower nick) = some ddb.content := by
  have content := findKey_content sound buffer table nick
  rw [found, Option.map_some] at content
  refine ⟨?_, content.symm⟩
  unfold ddbFindKey at found
  split at found
  · cases found
  · have mem := List.mem_of_find?_eq_some found
    have test := List.find?_some found
    exact (foldEq_lower ((sound table).lowered _ ddb mem) (lower_lower nick)).mp test

theorem ddbFind_record {R : Type} {name : R → Option CString} {decode : CString → J → R}
    (named : ∀ key json, name (decode key json) = some key) {t : Tables} {c : Contents} (sound : Sound crc32hash t c)
    {buffer : List Char} {table : Char} {cached : Option R} {unset : Unset J R} {nick : CString}
    (coherent : Coherent parse name decode cached (c table))
    (right : ∀ content, c table (lower nick) = some content → unset.right parse name cached content) :
    (ddbFind crc32hash name decode t buffer table cached unset nick).1 =
        (c table (lower nick)).map (fun content => decode (lower nick) (parse content)) ∧
      Coherent parse name decode (ddbFind crc32hash name decode t buffer table cached unset nick).2 (c table) := by
  unfold ddbFind
  cases found : ddbFindKey crc32hash t buffer table nick with
  | none =>
    have content := findKey_content sound buffer table nick
    rw [found, Option.map_none] at content
    exact ⟨by rw [← content, Option.map_none], coherent⟩
  | some ddb =>
    obtain ⟨key, record⟩ := findKey_record sound found
    have answer := ddbGet_record coherent (lower_lower nick) record (right ddb.content record)
    simp only [key, answer, record, Option.map_some]
    exact ⟨trivial, coherent_decode named (lower_lower nick) record⟩

theorem decodeNick_name (key : CString) (json : J) : (decodeNick lib key json).name = some key := rfl

theorem decodeOper_nick (key : CString) (json : J) : (decodeOper lib key json).nick = some key := rfl

theorem step_other_table (c : Contents) {table table' : Char} (other : table' ≠ table) (r : Register) :
    c.step me (.newRegister table r) table' = c table' := by
  simp only [Contents.step]
  split
  · exact Function.update_of_ne other _ _
  · rfl

theorem lookupStep_current {s : Lookups} {c : Contents} (current : Current lib crc32hash parse s c)
    {call : LookupCall J} (fresh : call.fresh lib me parse s c) :
    Current lib crc32hash parse (lookupStep lib crc32hash me s call) (c.lookupStep me call) := by
  cases call with
  | nickRegister r online unset =>
    refine ⟨step_sound current.sound fresh.1, ?_, ?_⟩
    · exact current.nicks.register decodeNick_name fresh.2
    · simp only [Contents.lookupStep, step_other_table c (show 'o' ≠ 'n' by decide)]
      exact current.opers
  | opersRegister r online unset =>
    refine ⟨step_sound current.sound fresh.1, ?_, ?_⟩
    · simp only [Contents.lookupStep, step_other_table c (show 'n' ≠ 'o' by decide)]
      exact current.nicks
    · exact current.opers.register decodeOper_nick fresh.2
  | nickFind buffer nick unset =>
    exact ⟨current.sound, (ddbFind_record decodeNick_name current.sound current.nicks fresh).2, current.opers⟩
  | opersFind buffer nick unset =>
    exact ⟨current.sound, current.nicks, (ddbFind_record decodeOper_nick current.sound current.opers fresh).2⟩

theorem lookupRun_current {s : Lookups} {c : Contents}
    (run : LookupRun lib crc32hash me (LookupCall.fresh lib me parse) s c) : Current lib crc32hash parse s c := by
  induction run with
  | init =>
    refine ⟨fun _ => Holds.empty, ?_, ?_⟩
    · intro ptr n content held
      cases held
    · intro ptr n content held
      cases held
  | call run fresh current => exact lookupStep_current current fresh

/-- In a run that parses what it decodes and does not change the record the structure was
filled from, every lookup answers the record now in the table, or nothing when there is none. -/
theorem run_lookups_fresh {s : Lookups} {c : Contents}
    (run : LookupRun lib crc32hash me (LookupCall.fresh lib me parse) s c) :
    (∀ buffer nick unset, (LookupCall.nickFind buffer nick unset).fresh lib me parse s c →
      (ddbNickFind lib crc32hash s buffer unset nick).1 =
        (c 'n' (lower nick)).map fun content => decodeNick lib (lower nick) (parse content)) ∧
    (∀ buffer nick unset, (LookupCall.opersFind buffer nick unset).fresh lib me parse s c →
      (ddbOpersFind lib crc32hash s buffer unset nick).1 =
        (c 'o' (lower nick)).map fun content => decodeOper lib (lower nick) (parse content)) ∧
    ∀ buffer table nick, (ddbFindKey crc32hash s.tables buffer table nick).map Entry.content = c table (lower nick) := by
  have current := lookupRun_current run
  refine ⟨fun buffer nick unset fresh => ?_, fun buffer nick unset fresh => ?_, fun buffer table nick => ?_⟩
  · exact (ddbFind_record decodeNick_name current.sound current.nicks fresh).1
  · exact (ddbFind_record decodeOper_nick current.sound current.opers fresh).1
  · exact findKey_content current.sound buffer table nick

end

inductive SampleJson where
  | object (fields : List (List Char × CString))
  | text (s : CString)

def sampleLib : JsonC SampleJson where
  objectGetEx
    | .object fields, name => (fields.lookup name).map .text
    | .text _, _ => none
  getString
    | .object _ => noKey
    | .text s => s
  getInt _ := 0

/-- The records `{"pass":"a"}` and `{"pass":"b"}`. -/
def passA : CString :=
  ⟨['\x7b', '"', 'p', 'a', 's', 's', '"', ':', '"', 'a', '"', '\x7d'], by decide, by decide⟩
def passB : CString :=
  ⟨['\x7b', '"', 'p', 'a', 's', 's', '"', ':', '"', 'b', '"', '\x7d'], by decide, by decide⟩

def sampleParse (s : CString) : SampleJson :=
  if s = passA then .object [(['p', 'a', 's', 's'], textA)]
  else if s = passB then .object [(['p', 'a', 's', 's'], textB)]
  else .object []

def emptyNick : DdbNick := ⟨none, none, none, 0, none, none⟩

def unsetFor (s : CString) : Unset SampleJson DdbNick := ⟨sampleParse s, emptyNick⟩

def LookupCall.parsed {J : Type} (parse : CString → J) (s : Lookups) (c : Contents) : LookupCall J → Prop
  | .nickRegister r online unset => online → ∀ content, r.content = some content → unset.json = parse content
  | .opersRegister r online unset => online → ∀ content, r.content = some content → unset.json = parse content
  | .nickFind _ nick unset =>
    ∀ content, c 'n' (lower nick) = some content → unset.right parse DdbNick.name s.ddbnptr content
  | .opersFind _ nick unset =>
    ∀ content, c 'o' (lower nick) = some content → unset.right parse DdbOperator.nick s.ddboptr content

theorem lookupStep_record (c : Contents) (id : Nat) (text : CString) (online : Bool)
    (unset : Unset SampleJson DdbNick) :
    Contents.lookupStep textA c (.nickRegister ⟨id, starMask, keyZz, some text⟩ online unset) 'n' (lower keyZz) =
      some text := by
  have kept : keeps textA 'n' ⟨id, starMask, keyZz, some text⟩ = true := keeps_starMask (by decide) rfl
  simp only [Contents.lookupStep, Contents.step, if_pos kept, Function.update_self]

/-- The record of `zz` is registered, looked up and found. -/
theorem run_lookups_fresh_zz : ∃ s c,
    LookupRun sampleLib crc32Table textA (LookupCall.fresh sampleLib textA sampleParse) s c ∧
      (ddbNickFind sampleLib crc32Table s [] (unsetFor passA) keyZz).1 =
        some (decodeNick sampleLib keyZz (sampleParse passA)) := by
  have run := @LookupRun.call _ sampleLib crc32Table textA (LookupCall.fresh sampleLib textA sampleParse) _ _
    (.nickRegister ⟨1, starMask, keyZz, some passA⟩ false (unsetFor passA)) .init
    ⟨fun _ _ => ⟨by decide, by simp [resident_empty]⟩, fun _ _ _ ptr n held => by cases held⟩
  refine ⟨_, _, run, ((run_lookups_fresh run).1 [] keyZz (unsetFor passA) ?_).trans ?_⟩
  · intro content found
    rw [lookupStep_record] at found
    cases found
    exact ⟨rfl, fun _ => rfl⟩
  · rw [lookupStep_record]
    rfl

/-- The password of `zz` is changed after a lookup; the next lookup still answers the old one. -/
theorem run_lookups_stale : ∃ s c unset,
    LookupRun sampleLib crc32Table textA (LookupCall.parsed sampleParse) s c ∧
      (LookupCall.nickFind [] keyZz unset).parsed sampleParse s c ∧
      (ddbNickFind sampleLib crc32Table s [] unset keyZz).1 ≠
        (c 'n' (lower keyZz)).map fun content => decodeNick sampleLib (lower keyZz) (sampleParse content) := by
  have first := @LookupRun.call _ sampleLib crc32Table textA (LookupCall.parsed sampleParse) _ _
    (.nickRegister ⟨1, starMask, keyZz, some passA⟩ false (unsetFor passA)) .init
    (fun online => by cases online)
  have second := @LookupRun.call _ _ _ _ _ _ _ (.nickFind [] keyZz (unsetFor passA)) first (by
    intro content found
    rw [lookupStep_record] at found
    cases found
    exact ⟨rfl, fun _ => rfl⟩)
  have third := @LookupRun.call _ _ _ _ _ _ _
    (.nickRegister ⟨2, starMask, keyZz, some passB⟩ false (unsetFor passB)) second
    (fun online => by cases online)
  refine ⟨_, _, unsetFor passB, third, ?_, fun same => ?_⟩
  · intro content found
    rw [lookupStep_record] at found
    cases found
    exact ⟨rfl, fun _ => rfl⟩
  · rw [lookupStep_record] at same
    have passwords := congrArg (Option.bind · DdbNick.password) same
    have offline : ∀ r, decodes textA 'n' r false = false := fun r => by simp [decodes]
    have stores : ∀ t id text, step crc32Table textA t (.newRegister 'n' ⟨id, starMask, keyZz, some text⟩) =
        keepRegister crc32Table { t with
          hashTable := Function.update t.hashTable 'n'
            (ddbHashCalculate (registerText 'n' ⟨id, starMask, keyZz, some text⟩) (t.hashTable 'n'))
          idTable := Function.update t.idTable 'n' id } 'n' ⟨id, starMask, keyZz, some text⟩ := fun t id text =>
      step_starMask (by decide) rfl
    simp only [lookupStep, ddbNickFind, offline, stores] at passwords
    revert passwords
    decide +kernel

end Ircd.Ddb
