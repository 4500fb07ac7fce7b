import Ircd.Library.Loop
import Ircd.Text.Lines
import Ircd.Users.Capabilities

/-! Capability negotiation: `send_caplist`, `cap_ls` and `cap_req`.

The client is a local one. A reply is given by its subcommand and by the text behind it; the first `find_cap` sorts
the table, so `inited` comes with every call.
-/

set_option autoImplicit false

namespace Ircd.Users
open Ircd.Text Ircd.Auth Ircd.Library

abbrev CapSet := Capab → Bool

def CapSet.put (set : CapSet) (cap : Capab) (value : Bool) : CapSet := Function.update set cap value

/-- The name of this server, of at most `HOSTLEN` characters. -/
structure MeName where
  chars : List Char
  short : chars.length ≤ 63

/-- What the handlers read of a client, whose name has at most `NICKLEN` characters. The flag `AR_CAP_PENDING` is there
if it has an authorization request. -/
structure CapClient where
  name : List Char
  short : name.length ≤ 15
  isUnknown : Bool
  capPending : Option Bool
  capab : CapSet
  active : CapSet

/-- `auth_cap_start`, for a client that has not registered. -/
def CapClient.capStart (client : CapClient) : CapClient :=
  if client.isUnknown then { client with capPending := client.capPending.map fun _ => true } else client

structure CapReply where
  subcmd : List Char
  text : List Char
  deriving DecidableEq

def capHeader (me : MeName) (name subcmd : List Char) : List Char :=
  ':' :: (me.chars ++ " CAP ".toList ++ (if name = [] then ['*'] else name) ++ [' '] ++ subcmd ++ " :".toList)

def bufLeft (me : MeName) (name subcmd : List Char) : Nat := lineLen - (capHeader me name subcmd).length

def capReply (me : MeName) (name subcmd text : List Char) : CapReply := ⟨subcmd, text.take (bufLeft me name subcmd)⟩

/-- The check of `send_caplist` that an entry is displayed. -/
def showsCap (feature : CapFeature → Bool) (set rem : Option CapSet) (c : Capability) : Bool :=
  rem.any (fun rem => rem c.cap) || set.any (fun set => set c.cap) ||
    !(rem.isSome || set.isSome || c.hidden || c.feat.any fun f => !feature f)

def capModifiers (c : Capability) : List Char := (if c.proto then ['~'] else []) ++ if c.sticky then ['='] else []

def capWord (rem : Option CapSet) (c : Capability) : List Char :=
  (if rem.any fun rem => rem c.cap then ['-'] else capModifiers c) ++ c.name

/-- What `send_caplist` writes for an entry behind the text of the buffer. -/
def capPiece (rem : Option CapSet) (capbuf : List Char) (c : Capability) : List Char :=
  (if capbuf.length ≠ 0 then [' '] else []) ++ capWord rem c

structure CapBuf where
  lines : List (List Char)
  capbuf : List Char

def addCap (left : Nat) (feature : CapFeature → Bool) (set rem : Option CapSet) (buf : CapBuf) (c : Capability) :
    CapBuf :=
  if !showsCap feature set rem c then buf
  else if left < buf.capbuf.length + (capPiece rem buf.capbuf c).length + 2 then
    -- the space in front of the word stays, although the buffer is empty now
    ⟨buf.lines ++ [buf.capbuf], capPiece rem buf.capbuf c⟩
  else ⟨buf.lines, buf.capbuf ++ capPiece rem buf.capbuf c⟩

def sendCaplist (table : List Capability) (feature : CapFeature → Bool) (me : MeName) (name : List Char)
    (set rem : Option CapSet) (subcmd : List Char) : List CapReply :=
  let buf := table.foldl (addCap (bufLeft me name subcmd) feature set rem) ⟨[], []⟩
  (buf.lines ++ [buf.capbuf]).map (capReply me name subcmd)

def capLs (ssl inited : Bool) (feature : CapFeature → Bool) (me : MeName) (client : CapClient) :
    CapClient × List CapReply :=
  (client.capStart, sendCaplist (capabList ssl inited) feature me client.name none none "LS".toList)

structure CapLocals where
  cs : CapSet
  as : CapSet
  set : CapSet
  rem : CapSet

def CapLocals.take (l : CapLocals) (neg : Bool) (c : Capability) : CapLocals where
  cs := l.cs.put c.cap !neg
  as := if c.proto then l.as else l.as.put c.cap !neg
  set := l.set.put c.cap !neg
  rem := l.rem.put c.cap neg

def refusesCap (neg : Bool) (c : Capability) : Bool := (!neg && c.prohibit) || (neg && c.sticky)

/-- One turn of the loop of `cap_req`; it leaves without sets where the request is refused. -/
def capReqTurn (table : List Capability) (s : Option (List Char) × CapLocals) :
    Option ((Option (List Char) × CapLocals) ⊕ Option CapLocals) :=
  match s.1 with
  | none => some (.inr (some s.2))
  | some cl =>
    let found := findCap table cl
    match found.cap with
    | none => some (.inr none)
    | some c => if refusesCap found.neg c then some (.inr none) else some (.inl (found.rest, s.2.take found.neg c))

/-- The client and `inited` behind a request, and the lines sent. -/
structure CapOutcome where
  client : CapClient
  inited : Bool
  replies : List CapReply

/-- `cap_req`; none where the turns do not suffice. -/
def capReq (fuel : Nat) (ssl inited : Bool) (feature : CapFeature → Bool) (me : MeName) (client : CapClient)
    (caplist : Option (List Char)) : Option CapOutcome :=
  let client := client.capStart
  let inited := inited || caplist.isSome
  (loop (capReqTurn (sortedCaps ssl)) fuel
    (caplist, ⟨client.capab, client.active, fun _ => false, fun _ => false⟩)).map fun result =>
      result.elim ⟨client, inited, [capReply me client.name "NAK".toList (caplist.getD [])]⟩ fun l =>
        ⟨{ client with capab := l.cs, active := l.as }, inited,
          sendCaplist (capabList ssl inited) feature me client.name (some l.set) (some l.rem) "ACK".toList⟩

def replyWords (replies : List CapReply) : List (List Char) := replies.flatMap fun r => wordsBy isSpace r.text

def CapBuf.words (buf : CapBuf) : List (List Char) := (buf.lines ++ [buf.capbuf]).flatMap (wordsBy isSpace)

def CapBuf.Fits (left : Nat) (buf : CapBuf) : Prop := ∀ text ∈ buf.lines ++ [buf.capbuf], text.length + 2 ≤ left

structure WrittenCap (c : Capability) : Prop where
  some_name : c.name ≠ []
  solid : ∀ d ∈ c.name, isSpace d = false
  short : c.name.length ≤ 20

variable {c : Capability}

theorem WrittenCap.word (written : WrittenCap c) (rem : Option CapSet) :
    capWord rem c ≠ [] ∧ (∀ d ∈ capWord rem c, isSpace d = false) ∧ (capWord rem c).length ≤ 22 := by
  have short := written.short
  have sign : ∀ d ∈ (if rem.any fun rem => rem c.cap then ['-'] else capModifiers c), isSpace d = false := by
    unfold capModifiers
    split
    · decide
    · cases c.proto <;> cases c.sticky <;> decide
  have sign_short : (if rem.any fun rem => rem c.cap then ['-'] else capModifiers c).length ≤ 2 := by
    unfold capModifiers
    split
    · decide
    · cases c.proto <;> cases c.sticky <;> decide
  refine ⟨?_, ?_, ?_⟩
  · exact List.append_ne_nil_of_right_ne_nil _ written.some_name
  · intro d d_mem
    rcases List.mem_append.mp d_mem with front | name
    · exact sign d front
    · exact written.solid d name
  · rw [capWord, List.length_append]
    omega

theorem CapBuf.words_append (lines : List (List Char)) (text : List Char) :
    CapBuf.words ⟨lines, text⟩ = lines.flatMap (wordsBy isSpace) ++ wordsBy isSpace text := by
  rw [CapBuf.words, List.flatMap_append, List.flatMap_singleton]

theorem capPiece_words (written : WrittenCap c) (rem : Option CapSet) (capbuf : List Char) :
    wordsBy isSpace (capPiece rem capbuf c) = [capWord rem c] ∧
      wordsBy isSpace (capbuf ++ capPiece rem capbuf c) = wordsBy isSpace capbuf ++ [capWord rem c] := by
  obtain ⟨some_word, solid, -⟩ := written.word rem
  have one := wordsBy_word some_word solid
  rw [capPiece]
  by_cases empty : capbuf = []
  · subst empty
    exact ⟨one, one⟩
  · rw [if_pos (by simpa using empty), List.singleton_append, wordsBy_cons (by decide),
      wordsBy_append_cons (by decide), one]
    exact ⟨rfl, rfl⟩

theorem capPiece_length (written : WrittenCap c) (rem : Option CapSet) (capbuf : List Char) :
    (capPiece rem capbuf c).length ≤ 23 := by
  have short := (written.word rem).2.2
  rw [capPiece, List.length_append]
  split
  · rw [List.length_singleton]
    omega
  · rw [List.length_nil]
    omega

theorem addCap_words {left : Nat} {feature : CapFeature → Bool} {set rem : Option CapSet} {buf : CapBuf}
    (written : WrittenCap c) :
    (addCap left feature set rem buf c).words =
      buf.words ++ if showsCap feature set rem c then [capWord rem c] else [] := by
  obtain ⟨alone, behind⟩ := capPiece_words written rem buf.capbuf
  rw [addCap]
  cases shown : showsCap feature set rem c with
  | false => simp
  | true =>
    rw [if_neg (by decide), if_pos rfl, CapBuf.words_append buf.lines buf.capbuf]
    split
    · -- the line is sent, and the word begins a new one
      rw [CapBuf.words_append, List.flatMap_append, List.flatMap_singleton, alone]
    · rw [CapBuf.words_append, behind, List.append_assoc]

theorem addCap_fits {left : Nat} {feature : CapFeature → Bool} {set rem : Option CapSet} {buf : CapBuf}
    (written : WrittenCap c) (wide : 25 ≤ left) (fits : buf.Fits left) :
    (addCap left feature set rem buf c).Fits left := by
  have piece := capPiece_length written rem buf.capbuf
  rw [addCap]
  split
  · exact fits
  · split
    · intro text text_mem
      rcases List.mem_append.mp text_mem with sent | new
      · exact fits text sent
      · rw [List.mem_singleton.mp new]
        exact le_trans (Nat.add_le_add_right piece 2) wide
    · intro text text_mem
      rcases List.mem_append.mp text_mem with sent | new
      · exact fits text (List.mem_append_left _ sent)
      · rw [List.mem_singleton.mp new, List.length_append]
        omega

variable {table : List Capability}

theorem addCaps_words (left : Nat) (feature : CapFeature → Bool) (set rem : Option CapSet) (buf : CapBuf)
    (written : ∀ c ∈ table, WrittenCap c) :
    (table.foldl (addCap left feature set rem) buf).words =
      buf.words ++ table.filterMap fun c => if showsCap feature set rem c then some (capWord rem c) else none := by
  induction table generalizing buf with
  | nil => simp
  | cons c table ih =>
    rw [List.foldl_cons, ih _ fun d d_mem => written d (List.mem_cons_of_mem c d_mem),
      addCap_words (written c List.mem_cons_self), List.append_assoc]
    congr 1
    cases shown : showsCap feature set rem c <;> simp [shown]

theorem addCaps_fits {left : Nat} (feature : CapFeature → Bool) (set rem : Option CapSet) {buf : CapBuf}
    (written : ∀ c ∈ table, WrittenCap c) (wide : 25 ≤ left) (fits : buf.Fits left) :
    (table.foldl (addCap left feature set rem) buf).Fits left := by
  induction table generalizing buf with
  | nil => exact fits
  | cons c table ih =>
    rw [List.foldl_cons]
    exact ih (fun d d_mem => written d (List.mem_cons_of_mem c d_mem))
      (addCap_fits (written c List.mem_cons_self) wide fits)

theorem bufLeft_wide (me : MeName) (client : CapClient) {subcmd : List Char} (short : subcmd.length ≤ 4) :
    25 ≤ bufLeft me client.name subcmd := by
  have me_short := me.short
  have name_short := client.short
  have target : (if client.name = [] then ['*'] else client.name).length ≤ 15 := by
    split
    · decide
    · exact name_short
  have front : " CAP ".toList.length = 5 := rfl
  have back : " :".toList.length = 2 := rfl
  simp only [bufLeft, capHeader, lineLen, List.length_cons, List.length_append, List.length_nil, front, back]
  omega

/-- The lines of `send_caplist` name the entries that are displayed, in the order of the table. -/
theorem sendCaplist_words (written : ∀ c ∈ table, WrittenCap c) (feature : CapFeature → Bool) (me : MeName)
    (client : CapClient) (set rem : Option CapSet) {subcmd : List Char} (short : subcmd.length ≤ 4) :
    replyWords (sendCaplist table feature me client.name set rem subcmd) =
      table.filterMap fun c => if showsCap feature set rem c then some (capWord rem c) else none := by
  have wide := bufLeft_wide me client short
  have empty : CapBuf.Fits (bufLeft me client.name subcmd) ⟨[], []⟩ := by
    intro text text_mem
    rw [List.mem_singleton.mp text_mem]
    exact le_trans (by decide) wide
  have fits := addCaps_fits feature set rem written wide empty
  have words := addCaps_words (bufLeft me client.name subcmd) feature set rem ⟨[], []⟩ written
  rw [show CapBuf.words ⟨[], []⟩ = [] from rfl, List.nil_append] at words
  rw [← words, replyWords, sendCaplist, List.flatMap_map, CapBuf.words]
  apply List.flatMap_congr
  intro text text_mem
  have whole := fits text text_mem
  rw [capReply, List.take_of_length_le (by omega)]

theorem sendCaplist_subcmd (table : List Capability) (feature : CapFeature → Bool) (me : MeName) (name : List Char)
    (set rem : Option CapSet) (subcmd : List Char) :
    ∀ r ∈ sendCaplist table feature me name set rem subcmd, r.subcmd = subcmd := by
  intro r r_mem
  obtain ⟨text, -, rfl⟩ := List.mem_map.mp r_mem
  rfl

theorem written_declared (ssl : Bool) : ∀ c ∈ declaredCaps ssl, WrittenCap c := by
  have checked : ∀ c ∈ declaredCaps ssl, c.name ≠ [] ∧ (∀ d ∈ c.name, isSpace d = false) ∧ c.name.length ≤ 20 := by
    cases ssl <;> decide
  intro c c_mem
  obtain ⟨some_name, solid, short⟩ := checked c c_mem
  exact ⟨some_name, solid, short⟩

variable {ssl : Bool}

theorem mem_capList {inited : Bool} : c ∈ capabList ssl inited ↔ c ∈ declaredCaps ssl := by
  rw [capabList]
  split
  · exact List.mem_insertionSort _
  · exact Iff.rfl

theorem written_capList (ssl inited : Bool) : ∀ c ∈ capabList ssl inited, WrittenCap c :=
  fun c c_mem => written_declared ssl c (mem_capList.mp c_mem)

def CapToken.names (table : List Capability) (t : CapToken) (cap : Capab) : Bool :=
  (lookupCap table t.name).any fun c => c.cap = cap

/-- A token that the code refuses: it names no capability, or one that may not be changed so. -/
def CapToken.Refused (table : List Capability) (t : CapToken) : Prop :=
  (lookupCap table t.name).all fun c => refusesCap t.neg c

instance CapToken.decidableRefused (table : List Capability) (t : CapToken) : Decidable (t.Refused table) :=
  inferInstanceAs (Decidable (_ = true))

def applyToken (table : List Capability) (sets : CapSet × CapSet) (t : CapToken) : CapSet × CapSet :=
  (lookupCap table t.name).elim sets fun c =>
    (sets.1.put c.cap !t.neg, if c.proto then sets.2 else sets.2.put c.cap !t.neg)

def lastCapSign (tokens : List CapToken) (c : Capability) : Option Bool :=
  (tokens.filter fun t => ircdStrcmp t.name c.name = 0).getLast?.map CapToken.neg

def ackWord (tokens : List CapToken) (c : Capability) : Option (List Char) :=
  (lastCapSign tokens c).map fun neg => (if neg then ['-'] else capModifiers c) ++ c.name

def takeTokens (table : List Capability) (l : CapLocals) (tokens : List CapToken) : CapLocals :=
  tokens.foldl (fun l t => (lookupCap table t.name).elim l fun c => l.take t.neg c) l

theorem takeTokens_sets (tokens : List CapToken) (l : CapLocals) :
    ((takeTokens table l tokens).cs, (takeTokens table l tokens).as) =
      tokens.foldl (applyToken table) (l.cs, l.as) := by
  induction tokens generalizing l with
  | nil => rfl
  | cons t tokens ih =>
    have turn := ih ((lookupCap table t.name).elim l fun c => l.take t.neg c)
    rw [takeTokens, List.foldl_cons, List.foldl_cons]
    refine turn.trans ?_
    congr 1
    rw [applyToken]
    cases lookupCap table t.name <;> rfl

def lastFor (table : List Capability) (tokens : List CapToken) (cap : Capab) : Option Bool :=
  (tokens.filter fun t => t.names table cap).getLast?.map CapToken.neg

theorem lastFor_cons (table : List Capability) (t : CapToken) (tokens : List CapToken) (cap : Capab) :
    lastFor table (t :: tokens) cap =
      (lastFor table tokens cap).or (if t.names table cap then some t.neg else none) := by
  rw [lastFor, lastFor, List.filter_cons]
  cases named : t.names table cap with
  | false => simp
  | true =>
    rw [if_pos rfl, if_pos rfl, List.getLast?_cons]
    cases (tokens.filter fun t => t.names table cap).getLast? <;> rfl

theorem takeTokens_marks (table : List Capability) (tokens : List CapToken) (l : CapLocals) (cap : Capab) :
    (takeTokens table l tokens).set cap = ((lastFor table tokens cap).map not).getD (l.set cap) ∧
      (takeTokens table l tokens).rem cap = (lastFor table tokens cap).getD (l.rem cap) := by
  induction tokens generalizing l with
  | nil => exact ⟨rfl, rfl⟩
  | cons t tokens ih =>
    obtain ⟨set_eq, rem_eq⟩ := ih ((lookupCap table t.name).elim l fun c => l.take t.neg c)
    rw [takeTokens, List.foldl_cons]
    change (takeTokens table _ tokens).set cap = _ ∧ (takeTokens table _ tokens).rem cap = _
    rw [set_eq, rem_eq, lastFor_cons]
    cases lastFor table tokens cap with
    | some neg => exact ⟨rfl, rfl⟩
    | none =>
      rw [Option.none_or, CapToken.names]
      cases found : lookupCap table t.name with
      | none => exact ⟨rfl, rfl⟩
      | some c =>
        simp only [Option.elim_some, CapLocals.take, CapSet.put, Option.any_some, decide_eq_true_eq]
        by_cases same : c.cap = cap
        · subst same
          simp
        · simp [same, Function.update_of_ne (Ne.symm same)]

def blankList (caplist : Option (List Char)) : Bool := caplist.any fun text => wordsBy isSpace text = []

def Grantable (table : List Capability) (caplist : Option (List Char)) : Prop :=
  blankList caplist = false ∧ ∀ t ∈ capTokens caplist, ¬ t.Refused table

instance decidableGrantable (table : List Capability) (caplist : Option (List Char)) :
    Decidable (Grantable table caplist) :=
  inferInstanceAs (Decidable (_ ∧ _))

theorem grantable_word (table : List Capability) {text w rest : List Char} {ws : List (List Char)}
    (split : wordsBy isSpace text = w :: ws) (behind : wordsBy isSpace rest = ws) :
    capTokens (some text) = capToken w :: capTokens (if ws = [] then none else some rest) ∧
      (Grantable table (some text) ↔
        ¬ (capToken w).Refused table ∧ Grantable table (if ws = [] then none else some rest)) := by
  have tokens : capTokens (some text) = capToken w :: capTokens (if ws = [] then none else some rest) := by
    rw [capTokens, Option.elim_some, split, List.map_cons]
    split
    next last => rw [last]; rfl
    next => rw [capTokens, Option.elim_some, behind]
  have solid : blankList (some text) = false := by
    simp [blankList, split]
  have solid_rest : blankList (if ws = [] then none else some rest) = false := by
    split
    · rfl
    next more => simp [blankList, behind, more]
  refine ⟨tokens, ?_⟩
  rw [Grantable, Grantable, tokens, List.forall_mem_cons, solid, solid_rest]
  simp

theorem capReq_loop (orderly : CapTable table) {fuel : Nat} {caplist : Option (List Char)}
    (stored : ∀ text, caplist = some text → Stored text)
    (enough : caplist.elim 0 (fun text => text.length + 1) < fuel) (l : CapLocals) :
    loop (capReqTurn table) fuel (caplist, l) =
      some (if Grantable table caplist then some (takeTokens table l (capTokens caplist)) else none) := by
  induction fuel generalizing caplist l with
  | zero => exact absurd enough (Nat.not_lt_zero _)
  | succ fuel ih =>
    rw [loop]
    cases caplist with
    | none =>
      have granted : Grantable table none := ⟨rfl, fun t t_mem => absurd t_mem List.not_mem_nil⟩
      rw [if_pos granted]
      rfl
    | some text =>
      cases split : wordsBy isSpace text with
      | nil =>
        have blank : ¬ Grantable table (some text) := by
          rintro ⟨solid, -⟩
          simp [blankList, split] at solid
        simp only [capReqTurn, findCap_blank split, if_neg blank]
      | cons w ws =>
        obtain ⟨neg_eq, cap_eq, rest, behind, shorter, stored_rest, rest_eq⟩ :=
          findCap_word orderly (stored text rfl) split
        obtain ⟨tokens, granted⟩ := grantable_word table split behind
        cases found : lookupCap table (capToken w).name with
        | none =>
          have refused : (capToken w).Refused table := by
            rw [CapToken.Refused, found]
            rfl
          simp only [capReqTurn, cap_eq, found, granted, refused, not_true_eq_false, false_and, if_false]
        | some c =>
          by_cases refuses : refusesCap (capToken w).neg c = true
          · have refused : (capToken w).Refused table := by
              rw [CapToken.Refused, found]
              exact refuses
            simp only [capReqTurn, cap_eq, found, neg_eq, refuses, if_true, granted, refused, not_true_eq_false,
              false_and, if_false]
          · have accepted : ¬ (capToken w).Refused table := by
              rw [CapToken.Refused, found]
              exact refuses
            simp only [capReqTurn, cap_eq, found, neg_eq, refuses, rest_eq, if_false, Bool.false_eq_true]
            rw [ih]
            · refine congrArg some (if_congr (granted.trans (and_iff_right accepted)).symm ?_ rfl)
              rw [tokens, takeTokens, takeTokens, List.foldl_cons, found, Option.elim_some]
            · intro text' text'_eq
              split at text'_eq
              · cases text'_eq
              · cases text'_eq
                exact stored_rest
            · rw [Option.elim_some] at enough
              split
              · exact Nat.lt_of_lt_of_le (Nat.succ_pos _) (Nat.le_of_lt_succ enough)
              · rw [Option.elim_some]
                omega

def OffersCap (ssl inited : Bool) (feature : CapFeature → Bool) (me : MeName) (client : CapClient)
    (name : List Char) : Prop :=
  ∃ c ∈ declaredCaps ssl, ircdStrcmp name c.name = 0 ∧
    capWord none c ∈ replyWords (capLs ssl inited feature me client).2

def CapToken.ClearsSticky (ssl : Bool) (t : CapToken) : Prop :=
  t.neg = true ∧ ∃ c ∈ declaredCaps ssl, ircdStrcmp t.name c.name = 0 ∧ c.sticky = true

def IsNak (o : CapOutcome) : Prop := o.replies.map CapReply.subcmd = ["NAK".toList]

instance decidableIsNak (o : CapOutcome) : Decidable (IsNak o) :=
  inferInstanceAs (Decidable (o.replies.map CapReply.subcmd = ["NAK".toList]))

structure Acknowledged (ssl : Bool) (client : CapClient) (tokens : List CapToken) (o : CapOutcome) : Prop where
  sets : (o.client.capab, o.client.active) =
    tokens.foldl (applyToken (declaredCaps ssl)) (client.capab, client.active)
  acks : ∀ r ∈ o.replies, r.subcmd = "ACK".toList
  words : replyWords o.replies = (capabList ssl o.inited).filterMap (ackWord tokens)

/-- The request is refused as a whole if a token is for no capability on offer or clears a sticky one, and carried out
otherwise. -/
def Negotiated (ssl inited : Bool) (feature : CapFeature → Bool) (me : MeName) (client : CapClient)
    (tokens : List CapToken) (o : CapOutcome) : Prop :=
  ((IsNak o ∧ o.client.capab = client.capab ∧ o.client.active = client.active) ↔
      ∃ t ∈ tokens, ¬ OffersCap ssl inited feature me client t.name ∨ t.ClearsSticky ssl) ∧
    ((∀ t ∈ tokens, ¬ (¬ OffersCap ssl inited feature me client t.name ∨ t.ClearsSticky ssl)) →
      Acknowledged ssl client tokens o)

theorem mem_sortedCaps : c ∈ sortedCaps ssl ↔ c ∈ declaredCaps ssl :=
  List.mem_insertionSort _

theorem lookupCap_declared (ssl : Bool) {name : List Char} (stored : Stored name) :
    lookupCap (declaredCaps ssl) name = lookupCap (sortedCaps ssl) name := by
  have orderly := sortedCaps_table ssl
  cases found : lookupCap (declaredCaps ssl) name with
  | some c =>
    have c_mem : c ∈ sortedCaps ssl := mem_sortedCaps.mpr (List.mem_of_find?_eq_some found)
    refine ((lookupCap_iff orderly stored c_mem).mpr ?_).symm
    simpa using List.find?_some found
  | none =>
    symm
    rw [lookupCap, List.find?_eq_none] at found ⊢
    intro c c_mem
    exact found c (mem_sortedCaps.mp c_mem)

theorem capWord_inj {d : Capability} (c_mem : c ∈ declaredCaps ssl) (d_mem : d ∈ declaredCaps ssl)
    (same : capWord none c = capWord none d) : c = d := by
  have distinct : ((declaredCaps ssl).map (capWord none)).Nodup := by
    cases ssl <;> decide
  exact List.inj_on_of_nodup_map distinct c_mem d_mem same

theorem showsCap_ls (feature : CapFeature → Bool) (c : Capability) :
    showsCap feature none none c = true ↔ c.hidden = false ∧ c.feat.all feature = true := by
  cases c with
  | mk cap hidden prohibit proto sticky name feat => cases hidden <;> cases feat <;> simp [showsCap]

theorem offersCap_iff {inited : Bool} {feature : CapFeature → Bool} {me : MeName} {client : CapClient}
    {name : List Char} :
    OffersCap ssl inited feature me client name ↔
      ∃ c ∈ declaredCaps ssl, ircdStrcmp name c.name = 0 ∧ c.hidden = false ∧ c.feat.all feature = true := by
  have listed := sendCaplist_words (written_capList ssl inited) feature me client none none
    (show "LS".toList.length ≤ 4 by decide)
  constructor
  · rintro ⟨c, c_mem, same, offered⟩
    rw [capLs, listed, List.mem_filterMap] at offered
    obtain ⟨d, d_mem, word⟩ := offered
    refine ⟨c, c_mem, same, ?_⟩
    cases shown : showsCap feature none none d with
    | false =>
      rw [shown] at word
      cases word
    | true =>
      rw [shown, if_pos rfl, Option.some.injEq] at word
      rw [← capWord_inj (mem_capList.mp d_mem) c_mem word]
      exact (showsCap_ls feature d).mp shown
  · rintro ⟨c, c_mem, same, open_c⟩
    refine ⟨c, c_mem, same, ?_⟩
    rw [capLs, listed, List.mem_filterMap]
    exact ⟨c, mem_capList.mpr c_mem, if_pos ((showsCap_ls feature c).mpr open_c)⟩

theorem hidden_of_prohibit (c_mem : c ∈ declaredCaps ssl) (prohibit : c.prohibit = true) : c.hidden = true := by
  have checked : ∀ c ∈ declaredCaps ssl, c.prohibit = true → c.hidden = true := by
    cases ssl <;> decide
  exact checked c c_mem prohibit

/-- What the code refuses is not on offer, or is a sticky capability that would be cleared. -/
theorem refused_inadmissible (inited : Bool) (feature : CapFeature → Bool) (me : MeName) (client : CapClient)
    {t : CapToken} (stored : Stored t.name) (refused : t.Refused (sortedCaps ssl)) :
    ¬ OffersCap ssl inited feature me client t.name ∨ t.ClearsSticky ssl := by
  by_cases sticky : t.ClearsSticky ssl
  · exact .inr sticky
  · left
    rw [offersCap_iff]
    rintro ⟨c, c_mem, same, shown, -⟩
    have found := (lookupCap_iff (sortedCaps_table ssl) stored (mem_sortedCaps.mpr c_mem)).mpr same
    rw [CapToken.Refused, found] at refused
    simp only [Option.all_some, refusesCap, Bool.or_eq_true, Bool.and_eq_true, Bool.not_eq_true'] at refused
    rcases refused with ⟨-, prohibit⟩ | ⟨neg, sticks⟩
    · have hidden := hidden_of_prohibit c_mem prohibit
      rw [shown] at hidden
      cases hidden
    · exact sticky ⟨neg, c, c_mem, same, sticks⟩

theorem refused_of_clearsSticky {t : CapToken} (stored : Stored t.name) (sticky : t.ClearsSticky ssl) :
    t.Refused (sortedCaps ssl) := by
  obtain ⟨neg, c, c_mem, same, sticks⟩ := sticky
  have found := (lookupCap_iff (sortedCaps_table ssl) stored (mem_sortedCaps.mpr c_mem)).mpr same
  rw [CapToken.Refused, found]
  simp [refusesCap, neg, sticks]

theorem stored_token {caplist : Option (List Char)} (stored : ∀ text, caplist = some text → Stored text)
    {t : CapToken} (t_mem : t ∈ capTokens caplist) : Stored t.name := by
  cases caplist with
  | none => cases t_mem
  | some text =>
    obtain ⟨w, w_mem, rfl⟩ := List.mem_map.mp t_mem
    have whole := stored text rfl
    have word : Stored w := by
      constructor
      · intro inside
        exact whole.1 (mem_of_mem_wordsBy w_mem inside)
      · intro c c_mem
        exact whole.2 c (mem_of_mem_wordsBy w_mem c_mem)
    rw [capToken]
    split
    · exact word.sublist (List.tail_sublist w)
    · exact word

theorem lastFor_eq_lastCapSign (orderly : CapTable table) {tokens : List CapToken}
    (stored : ∀ t ∈ tokens, Stored t.name) (c_mem : c ∈ table) :
    lastFor table tokens c.cap = lastCapSign tokens c := by
  rw [lastFor, lastCapSign]
  congr 2
  apply List.filter_congr
  intro t t_mem
  have named : t.names table c.cap = true ↔ ircdStrcmp t.name c.name = 0 := by
    rw [← lookupCap_iff orderly (stored t t_mem) c_mem, CapToken.names]
    cases found : lookupCap table t.name with
    | none => simp
    | some d =>
      have d_mem := List.mem_of_find?_eq_some found
      rw [Option.any_some, decide_eq_true_eq, Option.some.injEq]
      constructor
      · exact List.inj_on_of_nodup_map orderly.caps_nodup d_mem c_mem
      · exact congrArg Capability.cap
  rw [Bool.eq_iff_iff, named, decide_eq_true_eq]

def CapClient.locals (client : CapClient) : CapLocals :=
  ⟨client.capab, client.active, fun _ => false, fun _ => false⟩

theorem ackWord_eq {tokens : List CapToken} (stored : ∀ t ∈ tokens, Stored t.name) (feature : CapFeature → Bool)
    (client : CapClient) (c_mem : c ∈ declaredCaps ssl) :
    let l := takeTokens (sortedCaps ssl) client.locals tokens
    (if showsCap feature (some l.set) (some l.rem) c then some (capWord (some l.rem) c) else none) =
      ackWord tokens c := by
  intro l
  obtain ⟨set_eq, rem_eq⟩ := takeTokens_marks (sortedCaps ssl) tokens client.locals c.cap
  rw [lastFor_eq_lastCapSign (sortedCaps_table ssl) stored (mem_sortedCaps.mpr c_mem)] at set_eq rem_eq
  have set_l : l.set c.cap = ((lastCapSign tokens c).map not).getD false := set_eq
  have rem_l : l.rem c.cap = (lastCapSign tokens c).getD false := rem_eq
  rw [ackWord, showsCap, capWord]
  simp only [Option.any_some, Option.isSome_some, Bool.true_or, Bool.not_true, Bool.or_false, set_l, rem_l]
  cases lastCapSign tokens c with
  | none => rfl
  | some neg => cases neg <;> rfl

theorem capStart_sets (client : CapClient) :
    client.capStart.capab = client.capab ∧ client.capStart.active = client.active ∧
      client.capStart.name = client.name := by
  rw [CapClient.capStart]
  split <;> exact ⟨rfl, rfl, rfl⟩

theorem acknowledged_of_taken (feature : CapFeature → Bool) (me : MeName) {client client' : CapClient}
    {tokens : List CapToken} (stored : ∀ t ∈ tokens, Stored t.name) {o : CapOutcome}
    (sets : client'.capab = client.capab ∧ client'.active = client.active ∧ client'.name = client.name) (taken : let l := takeTokens (sortedCaps ssl) client'.locals tokens
      o.client.capab = l.cs ∧ o.client.active = l.as ∧ o.replies =
        sendCaplist (capabList ssl o.inited) feature me client'.name (some l.set) (some l.rem) "ACK".toList) :
    Acknowledged ssl client tokens o := by
  obtain ⟨capab_eq, active_eq, replies_eq⟩ := taken
  refine ⟨?_, ?_, ?_⟩
  · rw [capab_eq, active_eq, takeTokens_sets, CapClient.locals, sets.1, sets.2.1]
    refine List.foldl_ext _ _ _ fun pair t t_mem => ?_
    rw [applyToken, applyToken, lookupCap_declared ssl (stored t t_mem)]
  · rw [replies_eq]
    exact sendCaplist_subcmd _ _ _ _ _ _ _
  · rw [replies_eq, sendCaplist_words (written_capList ssl o.inited) feature me client' _ _ (by decide)]
    apply List.filterMap_congr
    intro c c_mem
    exact ackWord_eq stored feature client' (mem_capList.mp c_mem)

theorem not_isNak_of_acknowledged {client : CapClient} {tokens : List CapToken} {o : CapOutcome}
    (acknowledged : Acknowledged ssl client tokens o) : ¬ IsNak o := by
  intro nak
  have one : "NAK".toList ∈ o.replies.map CapReply.subcmd := by
    rw [nak]
    exact List.mem_singleton_self _
  obtain ⟨r, r_mem, subcmd⟩ := List.mem_map.mp one
  rw [acknowledged.acks r r_mem] at subcmd
  exact absurd subcmd (by decide)

theorem capReq_outcome {fuel : Nat} (ssl inited : Bool) (feature : CapFeature → Bool) (me : MeName)
    (client : CapClient) {caplist : Option (List Char)} (stored : ∀ text, caplist = some text → Stored text)
    (enough : caplist.elim 0 (fun text => text.length + 1) < fuel) :
    ∃ o, capReq fuel ssl inited feature me client caplist = some o ∧
      (if Grantable (sortedCaps ssl) caplist then Acknowledged ssl client (capTokens caplist) o
        else IsNak o ∧ o.client.capab = client.capab ∧ o.client.active = client.active) := by
  have ended := capReq_loop (sortedCaps_table ssl) stored enough client.capStart.locals
  have sets := capStart_sets client
  simp only [capReq]
  rw [show (⟨client.capStart.capab, client.capStart.active, fun _ => false, fun _ => false⟩ : CapLocals) =
    client.capStart.locals from rfl, ended, Option.map_some]
  refine ⟨_, rfl, ?_⟩
  by_cases granted : Grantable (sortedCaps ssl) caplist
  · rw [if_pos granted, if_pos granted, Option.elim_some]
    exact acknowledged_of_taken feature me (fun t t_mem => stored_token stored t_mem) sets ⟨rfl, rfl, rfl⟩
  · rw [if_neg granted, if_neg granted, Option.elim_none]
    exact ⟨rfl, sets.1, sets.2.1⟩

/-- `cap_req` ends, and it does what CAP LS announces just when the list is not blank and, unless the code refuses a
token anyway, every token is for a capability on offer: a capability that is turned off or hidden is granted, and so is
its removal. -/
theorem cap_req_negotiates {fuel : Nat} (ssl inited : Bool) (feature : CapFeature → Bool) (me : MeName)
    (client : CapClient) (caplist : Option CString)
    (enough : (caplist.map CString.chars).elim 0 (fun text => text.length + 1) < fuel) :
    let list := caplist.map CString.chars
    ∃ o, capReq fuel ssl inited feature me client list = some o ∧
      (Negotiated ssl inited feature me client (capTokens list) o ↔
        blankList list = false ∧ ((∃ t ∈ capTokens list, t.Refused (sortedCaps ssl)) ∨
          ∀ t ∈ capTokens list, OffersCap ssl inited feature me client t.name)) := by
  intro list
  have stored : ∀ text, list = some text → Stored text := by
    intro text text_eq
    obtain ⟨s, -, rfl⟩ := Option.map_eq_some_iff.mp text_eq
    exact ⟨s.nul_free, s.byte⟩
  obtain ⟨o, ends, outcome⟩ := capReq_outcome ssl inited feature me client stored enough
  refine ⟨o, ends, ?_⟩
  by_cases granted : Grantable (sortedCaps ssl) list
  · rw [if_pos granted] at outcome
    have no_nak := not_isNak_of_acknowledged outcome
    constructor
    · rintro ⟨nak_iff, -⟩
      refine ⟨granted.1, .inr fun t t_mem => ?_⟩
      by_contra closed
      exact no_nak (nak_iff.mpr ⟨t, t_mem, .inl closed⟩).1
    · rintro ⟨-, ⟨t, t_mem, refused⟩ | offered⟩
      · exact absurd refused (granted.2 t t_mem)
      · refine ⟨⟨fun nak => absurd nak.1 no_nak, ?_⟩, fun _ => outcome⟩
        rintro ⟨t, t_mem, closed | sticky⟩
        · exact absurd (offered t t_mem) closed
        · exact absurd (refused_of_clearsSticky (stored_token stored t_mem) sticky) (granted.2 t t_mem)
  · rw [if_neg granted] at outcome
    constructor
    · rintro ⟨nak_iff, -⟩
      obtain ⟨t, t_mem, -⟩ := nak_iff.mp outcome
      have solid : blankList list = false := by
        cases list_eq : list with
        | none => rfl
        | some text =>
          rw [list_eq] at t_mem
          obtain ⟨w, w_mem, -⟩ := List.mem_map.mp t_mem
          simp only [blankList, Option.any_some, decide_eq_false_iff_not]
          exact List.ne_nil_of_mem w_mem
      refine ⟨solid, .inl ?_⟩
      by_contra accepted
      exact granted ⟨solid, fun t t_mem refused => accepted ⟨t, t_mem, refused⟩⟩
    · rintro ⟨solid, -⟩
      have refuses : ∃ t ∈ capTokens list, t.Refused (sortedCaps ssl) := by
        by_contra accepted
        exact granted ⟨solid, fun t t_mem refused => accepted ⟨t, t_mem, refused⟩⟩
      obtain ⟨t, t_mem, refused⟩ := refuses
      have bad := refused_inadmissible inited feature me client (stored_token stored t_mem) refused
      exact ⟨⟨fun _ => ⟨t, t_mem, bad⟩, fun _ => outcome⟩, fun fine => absurd bad (fine t t_mem)⟩

def irc : MeName := ⟨"irc".toList, by decide⟩

def capGuest : CapClient := ⟨[], by decide, true, some false, fun _ => false, fun _ => false⟩

def awayTwice : CString := ⟨"away-notify  -AWAY-NOTIFY multi-prefix".toList, by decide, by decide⟩

theorem cap_req_negotiates_away :
    let list := some awayTwice.chars
    ∃ o, capReq 50 true false (fun _ => true) irc capGuest list = some o ∧
      (Negotiated true false (fun _ => true) irc capGuest (capTokens list) o ↔
        blankList list = false ∧ ((∃ t ∈ capTokens list, t.Refused (sortedCaps true)) ∨
          ∀ t ∈ capTokens list, OffersCap true false (fun _ => true) irc capGuest t.name)) :=
  cap_req_negotiates true false (fun _ => true) irc capGuest (some awayTwice) (by decide)

/-- The administrator has turned `multi-prefix` off. -/
def prefixOff (f : CapFeature) : Bool := f ≠ .multiPrefix

/-- `CAP REQ :multi-prefix` is acknowledged although CAP LS does not offer the capability. -/
theorem prefix_off_granted :
    ¬ (∀ o, capReq 20 false false prefixOff irc capGuest (some "multi-prefix".toList) = some o →
      Negotiated false false prefixOff irc capGuest (capTokens (some "multi-prefix".toList)) o) := by
  intro negotiates
  have honest := negotiates _ rfl
  have closed : ¬ OffersCap false false prefixOff irc capGuest "multi-prefix".toList := by
    rw [offersCap_iff]
    decide
  have nak := (honest.1.mpr ⟨⟨false, "multi-prefix".toList⟩, by decide, .inl closed⟩).1
  exact absurd nak (by decide)

end Ircd.Users
