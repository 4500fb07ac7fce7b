import Ircd.Parse.CommandTrie
import Ircd.Parse.Parameters
import Mathlib.Data.List.DropRight

/-! `parse_client` and `parse_server`: the source of a line, its command and its parameters.
-/

set_option autoImplicit false

namespace Ircd.Parse
open Ircd.Text

def Cursor.advance (s : Cursor) : Cursor := ⟨s.passed ++ s.rest.take 1, s.rest.drop 1⟩

def charAt (text : List Char) (k : Nat) : Char := text.getD k nul

def lineStart (buffer : List Char) : Cursor := ⟨[], buffer⟩

/-- Whether `strchr` finds a blank behind the word at a pointer. -/
def Cursor.more (ch : Cursor) : Bool := peek ch.pass.rest = ' '

/-- `if ((s = strchr(ch, ' '))) *s++ = '\0';` -/
def Cursor.ended (ch : Cursor) : Cursor := if ch.more then ch.pass.terminate else ch.pass

/-- What `parse_client` does with a line: it calls a handler if there is one for the command, and a user
is told of an unknown command. -/
inductive ClientOutcome where
  | dead
  | empty
  | unknown (reply : Option (List Char))
  | handled (mptr : Message) (call : Call)

def clientCommand (buffer : List Char) : Cursor :=
  let ch := (lineStart buffer).skip
  if peek ch.rest = ':' then ch.advance.pass.skip else ch

def parseClient (s : Commands) (dead isUser : Bool) (name : List Char) (para : Para) (buffer : List Char) :
    Except Fault ClientOutcome :=
  if dead then .ok .dead
  else
    let para : Para := Function.update para 0 (.named name)
    let ch := clientCommand buffer
    if peek ch.rest = nul then .ok .empty
    else
      let command := stringAt ch.ended.buffer ch.place
      match msgTreeParse command s.msgTree with
      | none => .ok (.unknown (if isUser then some command else none))
      | some mptr =>
        if mptr.flags &&& mflgExtra ≠ 0 then
          (para.write 1 (.extra mptr.extra)).bind fun para =>
            (splitLine false mptr.parameters 1 para ch.ended ch.more).map (.handled mptr)
        else (splitLine false mptr.parameters 0 para ch.ended ch.more).map (.handled mptr)

/-- The clients as the parser knows them: their names, the links that they are behind, and the tables. -/
structure Clients (Client : Type) where
  name : Client → List Char
  cliFrom : Client → Client
  dead : Client → Bool
  findClient : List Char → Option Client
  findNServer : List Char → Option Client
  findNUser : List Char → Option Client

/-- The source of a line from a server, `para[0]` and where the line goes on, or the line is dropped,
perhaps with a KILL for an unknown numeric. -/
inductive Source (Client : Type) where
  | dropped (killed : Option (List Char))
  | found (source : Client) (sender : Arg) (ch : Cursor)

section
variable {Client : Type} [DecidableEq Client] (world : Clients Client) (cptr : Client)

def namedSource (buffer : List Char) : Source Client :=
  let ch := (lineStart buffer).pass
  if peek ch.rest ≠ ' ' then .dropped none
  else
    let ch := ch.terminate
    match world.findClient (stringAt ch.buffer 1) with
    | none =>
      -- only a SQUIT may travel against a SQUIT that has removed its source
      if charAt ch.skip.rest 1 = 'Q' then .found cptr (.named (world.name cptr)) ch.skip else .dropped none
    | some source => if world.cliFrom source ≠ cptr then .dropped none else .found source (.text 1) ch

def numericPrefix (buffer : List Char) : List Char := (buffer.take 5).takeWhile inWord

def lookupSource (buffer : List Char) : Option Client :=
  if numericPrefix buffer = [] then some cptr
  else if charAt buffer 1 = ' ' ∨ charAt buffer 2 = ' ' then world.findNServer (numericPrefix buffer)
  else world.findNUser (numericPrefix buffer)

def travelsUpstream (text : List Char) : Bool :=
  charAt text 1 = 'Q' || (charAt text 0 = 'D' && charAt text 1 = ' ') || (charAt text 0 = 'K' && charAt text 2 = 'L')

def killsUnknown (numeric text : List Char) : Option (List Char) :=
  if charAt text 0 = 'N' ∧ (charAt text 1 = ' ' ∨ charAt text 1 = 'I') then
    match world.findNServer numeric with
    | some server => if world.cliFrom server = cptr then some numeric else none
    | none => none
  else none

def numericSource (buffer : List Char) : Except Fault (Source Client) :=
  let ch := (lineStart buffer).advance.pass
  let known := lookupSource world cptr buffer
  let ch := if known.isNone then ch.skip else ch
  if known.isNone && !travelsUpstream ch.rest then
    .ok (.dropped (killsUnknown world cptr (numericPrefix buffer) ch.rest))
  else
    match if known.isNone then some cptr else known with
    | none => .error .nullSource
    | some source =>
      .ok (if world.cliFrom source ≠ cptr then .dropped none else .found source (.named (world.name source)) ch)

def serverSource (buffer : List Char) : Except Fault (Source Client) :=
  if peek buffer = ':' then .ok (namedSource world cptr buffer) else numericSource world cptr buffer

inductive Served (Client : Type) where
  | dropped (killed : Option (List Char))
  | numeric (numeric : Int) (newTags : Bool) (source : Client) (call : Call)
  | handled (mptr : Message) (source : Client) (call : Call)

def numericOf (command : List Char) : Int :=
  (charValue (charAt command 0) - 48) * 100 + (charValue (charAt command 1) - 48) * 10 +
    (charValue (charAt command 2) - 48)

def serverCommand (s : Commands) (para : Para) (newTags : Bool) (source : Client) (ch : Cursor) :
    Except Fault (Served Client) :=
  let len := if ch.more then ch.pass.place - ch.place else 0
  if len = 3 ∧ isDigit (peek ch.rest) then
    let numeric := numericOf ch.rest
    (splitLine (numeric ≠ 0) 2 0 para ch.pass true).bind fun call =>
      -- a number that is zero is taken for a command, and there is no message
      if numeric ≠ 0 then .ok (.numeric numeric newTags source call) else .error .nullMessage
  else
    let command := stringAt ch.ended.buffer ch.place
    match (msgTreeParse command s.tokTree).or (msgTreeParse command s.msgTree) with
    | none => .ok (.dropped none)
    | some mptr => (splitLine false mptr.parameters 0 para ch.ended ch.more).map (.handled mptr source)

def parseServer (s : Commands) (para : Para) (buffer : List Char) : Except Fault (Served Client) :=
  if world.dead cptr then .ok (.dropped none)
  else
    (serverSource world cptr buffer).bind fun
      | .dropped killed => .ok (.dropped killed)
      | .found source sender ch =>
        if peek ch.skip.rest = nul then .ok (.dropped none)
        else serverCommand s (Function.update para 0 sender) (peek buffer ≠ ':') source ch.skip

end

/-- Where the command of a line from a server begins: behind the prefix, whatever that is. -/
def serverBody (buffer : List Char) : List Char := ((buffer.drop 1).dropWhile inWord).dropWhile (· = ' ')

def clientBody (buffer : List Char) : List Char :=
  let text := buffer.dropWhile (· = ' ')
  if peek text = ':' then ((text.drop 1).dropWhile inWord).dropWhile (· = ' ') else text

def argumentText (body : List Char) : List Char := (body.dropWhile inWord).takeWhile (· ≠ nul)

/-- What `parse_server` takes for a numeric: three characters before a blank, the first one a digit. -/
def looksNumeric (body : List Char) : Bool :=
  peek (body.dropWhile inWord) = ' ' && (body.takeWhile inWord).length = 3 && isDigit (peek body)

def Message.limit (mptr : Message) : Nat := max 1 (min mptr.parameters maxPara)

section
variable (ch : Cursor)

theorem command_eq : stringAt ch.ended.buffer ch.place = ch.rest.takeWhile inWord := by
  have word : ∀ c ∈ ch.rest.takeWhile inWord, inWord c = true := fun c mem => List.mem_takeWhile_imp mem
  have stops := peek_behind_word ch
  unfold Cursor.ended
  cases more : ch.more with
  | true =>
    rw [if_pos rfl, Cursor.terminate, Cursor.buffer, pass_eq, List.append_assoc, List.append_assoc]
    exact stringAt_word word rfl
  | false =>
    rw [if_neg Bool.false_ne_true, Cursor.buffer, pass_eq, List.append_assoc]
    refine stringAt_word word ?_
    have not_blank := of_decide_eq_false more
    rw [pass_eq] at stops not_blank
    rw [inWord] at stops
    simpa [not_blank] using stops

theorem words_behind (numeric : Bool) (count : Nat) :
    words numeric count (if ch.more then ch.ended.rest.takeWhile (· ≠ nul) else []) =
      words numeric count (argumentText ch.rest) := by
  have stops := peek_behind_word ch
  unfold Cursor.ended argumentText
  rw [pass_eq] at stops
  cases more : ch.more with
  | true =>
    have blank := of_decide_eq_true more
    rw [pass_eq] at blank
    dsimp only at blank
    rw [if_pos rfl, if_pos rfl, Cursor.terminate, pass_eq]
    cases behind : ch.rest.dropWhile inWord with
    | nil => rfl
    | cons c rest =>
      rw [behind, peek_cons] at blank
      rw [List.takeWhile_cons_of_pos (by rw [blank]; decide), blank, words_blank]
      rfl
  | false =>
    have not_blank := of_decide_eq_false more
    rw [pass_eq] at not_blank
    rw [if_neg Bool.false_ne_true, takeWhile_of_peek]
    rw [inWord] at stops
    simpa [not_blank] using stops

end

theorem clientCommand_rest (buffer : List Char) : (clientCommand buffer).rest = clientBody buffer := by
  unfold clientCommand clientBody lineStart
  rw [skip_eq]
  dsimp only
  split
  · rw [Cursor.advance, skip_eq, pass_eq]
  · rfl

/-- What a handler gets: the entries are in `para`, and the parameters are those of the text behind the command. -/
structure Call.Right (call : Call) (mptr : Message) (body : List Char) : Prop where
  bound : call.parc ≤ maxPara + 1
  params : call.params = rfcParams mptr.limit (argumentText body)

theorem Call.Splits.right {call : Call} {mptr : Message} {para : Para} {ch : Cursor}
    (splits : call.Splits false mptr.parameters 0 para
      (if ch.more then ch.ended.rest.takeWhile (· ≠ nul) else [])) : call.Right mptr ch.rest where
  bound := splits.bound
  params := by rw [splits.params_eq, rfcParams, words_behind, rfcParams, Message.limit]

theorem parseClient_spec (s : Commands) (dead isUser : Bool) (name : List Char) (para : Para) (buffer : List Char) :
    ∃ outcome, parseClient s dead isUser name para buffer = .ok outcome ∧ ∀ mptr call, outcome = .handled mptr call →
      msgTreeParse ((clientBody buffer).takeWhile inWord) s.msgTree = some mptr ∧ call.parc ≤ maxPara + 1 ∧
      (mptr.flags &&& mflgExtra = 0 → call.Right mptr (clientBody buffer)) := by
  unfold parseClient
  dsimp only
  rw [command_eq, clientCommand_rest]
  split
  next => exact ⟨_, rfl, fun _ _ => nofun⟩
  split
  next => exact ⟨_, rfl, fun _ _ => nofun⟩
  cases found : msgTreeParse ((clientBody buffer).takeWhile inWord) s.msgTree with
  | none => exact ⟨_, rfl, fun _ _ => nofun⟩
  | some mptr =>
    dsimp only
    by_cases plain : mptr.flags &&& mflgExtra = 0
    · rw [if_neg (not_not_intro plain)]
      obtain ⟨call, splits, spec⟩ := splitLine_spec false mptr.parameters (Nat.zero_le 1)
        (Function.update para 0 (.named name)) (clientCommand buffer).ended (clientCommand buffer).more
      refine ⟨.handled mptr call, by rw [splits]; rfl, ?_⟩
      rintro _ _ ⟨⟩
      exact ⟨rfl, spec.bound, fun _ => clientCommand_rest buffer ▸ spec.right⟩
    · rw [if_pos plain]
      obtain ⟨para₁, wrote, -⟩ := @write_ok (Function.update para 0 (.named name)) 1 (.extra mptr.extra) (by decide)
      obtain ⟨call, splits, spec⟩ := splitLine_spec false mptr.parameters le_rfl para₁ (clientCommand buffer).ended
        (clientCommand buffer).more
      refine ⟨.handled mptr call, by rw [wrote, Except.bind, splits]; rfl, ?_⟩
      rintro _ _ ⟨⟩
      exact ⟨rfl, spec.bound, fun no => absurd no plain⟩

section
variable {Client : Type} [DecidableEq Client] {world : Clients Client} {cptr source : Client} {sender : Arg}
  {buffer : List Char} {ch : Cursor}

theorem skip_skip (ch : Cursor) : ch.skip.skip.rest = ch.skip.rest := by
  rw [skip_eq, skip_eq]
  exact List.dropWhile_idempotent _ _

theorem namedSource_body (colon : peek buffer = ':') (found : namedSource world cptr buffer = .found source sender ch) :
    ch.skip.rest = serverBody buffer := by
  have behind : (lineStart buffer).pass.rest = (buffer.drop 1).dropWhile inWord := by
    rw [pass_eq]
    cases buffer with
    | nil => rfl
    | cons c buffer =>
      obtain rfl : c = ':' := colon
      exact List.dropWhile_cons_of_pos (show inWord ':' = true by decide)
  unfold namedSource at found
  dsimp only at found
  split at found
  next => contradiction
  next blank =>
    have body : (lineStart buffer).pass.terminate.skip.rest = serverBody buffer := by
      rw [not_ne_iff, behind] at blank
      rw [skip_eq, Cursor.terminate, behind, serverBody]
      dsimp only
      cases stop : (buffer.drop 1).dropWhile inWord with
      | nil => rfl
      | cons c rest =>
        rw [stop, peek_cons] at blank
        rw [List.dropWhile_cons_of_pos (by rw [blank]; rfl), List.drop_one, List.tail_cons]
    split at found
    next =>
      split at found
      next =>
        cases found
        exact (skip_skip _).trans body
      next => contradiction
    next =>
      split at found
      next => contradiction
      next =>
        cases found
        exact body

theorem numericSource_known (known : lookupSource world cptr buffer = some source) :
    numericSource world cptr buffer = .ok (if world.cliFrom source ≠ cptr then .dropped none
      else .found source (.named (world.name source)) (lineStart buffer).advance.pass) := by
  unfold numericSource
  rw [known]
  rfl

theorem numericSource_unknown (unknown : lookupSource world cptr buffer = none) :
    numericSource world cptr buffer = .ok (if travelsUpstream (lineStart buffer).advance.pass.skip.rest then
      if world.cliFrom cptr ≠ cptr then .dropped none
      else .found cptr (.named (world.name cptr)) (lineStart buffer).advance.pass.skip
      else .dropped (killsUnknown world cptr (numericPrefix buffer) (lineStart buffer).advance.pass.skip.rest)) := by
  unfold numericSource
  rw [unknown]
  simp only [Option.isNone_none, if_true, Bool.true_and]
  cases travelsUpstream (lineStart buffer).advance.pass.skip.rest with
  | true => rfl
  | false => rfl

theorem numericSource_ok (world : Clients Client) (cptr : Client) (buffer : List Char) :
    ∃ source, numericSource world cptr buffer = .ok source := by
  cases known : lookupSource world cptr buffer with
  | none => exact ⟨_, numericSource_unknown known⟩
  | some source => exact ⟨_, numericSource_known known⟩

theorem numericSource_body (found : numericSource world cptr buffer = .ok (.found source sender ch)) :
    ch.skip.rest = serverBody buffer := by
  have body : (lineStart buffer).advance.pass.skip.rest = serverBody buffer := by
    rw [skip_eq, pass_eq]
    rfl
  cases known : lookupSource world cptr buffer with
  | none =>
    rw [numericSource_unknown known] at found
    split at found
    next =>
      split at found
      next => cases found
      next =>
        cases found
        exact (skip_skip _).trans body
    next => cases found
  | some source =>
    rw [numericSource_known known] at found
    split at found
    next => cases found
    next =>
      cases found
      exact body

theorem serverSource_ok (world : Clients Client) (cptr : Client) (buffer : List Char) :
    ∃ source, serverSource world cptr buffer = .ok source := by
  unfold serverSource
  split
  · exact ⟨_, rfl⟩
  · exact numericSource_ok world cptr buffer

theorem serverSource_body (found : serverSource world cptr buffer = .ok (.found source sender ch)) :
    ch.skip.rest = serverBody buffer := by
  unfold serverSource at found
  split at found
  next colon => exact namedSource_body colon (Except.ok.inj found)
  next => exact numericSource_body found

/-- What `parse_server` does behind the source. -/
inductive ServerCommand (s : Commands) (newTags : Bool) (source : Client) (body : List Char) :
    Except Fault (Served Client) → Prop
  | unknown (name : looksNumeric body = false) : ServerCommand s newTags source body (.ok (.dropped none))
  | handled (name : looksNumeric body = false) (mptr : Message) (call : Call) (right : call.Right mptr body)
    (lookup : (msgTreeParse (body.takeWhile inWord) s.tokTree).or
      (msgTreeParse (body.takeWhile inWord) s.msgTree) = some mptr) :
    ServerCommand s newTags source body (.ok (.handled mptr source call))
  | numeric (number : looksNumeric body = true) (call : Call) (bound : call.parc ≤ maxPara + 1)
    (nonzero : numericOf body ≠ 0) :
    ServerCommand s newTags source body (.ok (.numeric (numericOf body) newTags source call))
  | zero (number : looksNumeric body = true) (zero : numericOf body = 0) :
    ServerCommand s newTags source body (.error .nullMessage)

theorem looksNumeric_iff {ch : Cursor} :
    (if ch.more then ch.pass.place - ch.place else 0) = 3 ∧ isDigit (peek ch.rest) = true ↔
      looksNumeric ch.rest = true := by
  have length : ch.pass.place - ch.place = (ch.rest.takeWhile inWord).length := by
    rw [pass_eq, Cursor.place, Cursor.place, List.length_append, Nat.add_sub_cancel_left]
  have more : ch.more = decide (peek (ch.rest.dropWhile inWord) = ' ') := by
    rw [Cursor.more, pass_eq]
  rw [looksNumeric, ← more, length]
  cases ch.more with
  | true => simp
  | false => simp

omit [DecidableEq Client] in
theorem serverCommand_spec (s : Commands) (para : Para) (newTags : Bool) (source : Client) (ch : Cursor) :
    ServerCommand s newTags source ch.rest (serverCommand s para newTags source ch) := by
  unfold serverCommand
  dsimp only
  rw [command_eq]
  by_cases number : looksNumeric ch.rest = true
  · rw [if_pos (looksNumeric_iff.mpr number)]
    obtain ⟨call, splits, spec⟩ := splitLine_spec (numericOf ch.rest ≠ 0) 2 (Nat.zero_le 1) para ch.pass true
    rw [splits, Except.bind]
    split
    next nonzero => exact .numeric number call spec.bound nonzero
    next zero => exact .zero number (not_ne_iff.mp zero)
  · rw [if_neg (mt looksNumeric_iff.mp number)]
    rw [Bool.not_eq_true] at number
    cases lookup : (msgTreeParse (ch.rest.takeWhile inWord) s.tokTree).or
      (msgTreeParse (ch.rest.takeWhile inWord) s.msgTree) with
    | none => exact .unknown number
    | some mptr =>
      obtain ⟨call, splits, spec⟩ := splitLine_spec false mptr.parameters (Nat.zero_le 1) para ch.ended ch.more
      dsimp only
      rw [splits]
      exact .handled number mptr call spec.right lookup

/-- A line that gets past its source and is not empty goes on as the text behind the source. -/
theorem parseServer_found (s : Commands) (para : Para) (alive : world.dead cptr = false)
    (found : serverSource world cptr buffer = .ok (.found source sender ch)) (some_text : peek (serverBody buffer) ≠ nul) :
    ServerCommand s (peek buffer ≠ ':') source (serverBody buffer) (parseServer world cptr s para buffer) := by
  rw [← serverSource_body found] at some_text ⊢
  unfold parseServer
  rw [alive, if_neg Bool.false_ne_true, found, Except.bind]
  dsimp only
  rw [if_neg some_text]
  exact serverCommand_spec s _ _ source ch.skip

theorem parseServer_cases (s : Commands) (world : Clients Client) (cptr : Client) (para : Para) (buffer : List Char) :
    (∃ killed, parseServer world cptr s para buffer = .ok (.dropped killed)) ∨
      ∃ source sender ch, world.dead cptr = false ∧ serverSource world cptr buffer = .ok (.found source sender ch) ∧
        ServerCommand s (peek buffer ≠ ':') source (serverBody buffer) (parseServer world cptr s para buffer) := by
  obtain ⟨result, source_ok⟩ := serverSource_ok world cptr buffer
  cases dead : world.dead cptr with
  | true => exact .inl ⟨none, by rw [parseServer, dead]; rfl⟩
  | false =>
    cases result with
    | dropped killed => exact .inl ⟨killed, by rw [parseServer, dead, source_ok]; rfl⟩
    | found source sender ch =>
      by_cases empty : peek (serverBody buffer) = nul
      · refine .inl ⟨none, ?_⟩
        rw [parseServer, dead, if_neg Bool.false_ne_true, source_ok, Except.bind]
        dsimp only
        rw [serverSource_body source_ok, if_pos empty]
      · exact .inr ⟨source, sender, ch, rfl, source_ok, parseServer_found s para dead source_ok empty⟩

end

/-- Every line is split as the RFC has it, whoever it is from and whatever the tries and the tables of
clients are: no index is outside `para`, `parc` has its bound, a command that is no service's gets
the words of the text behind it, and both functions give the same words for the same text. -/
theorem parameters_split {Client : Type} [DecidableEq Client] (s : Commands) (world : Clients Client) (cptr : Client) :
    (∀ dead isUser name para buffer, ∃ outcome, parseClient s dead isUser name para buffer = .ok outcome ∧
      ∀ mptr call, outcome = .handled mptr call →
        msgTreeParse ((clientBody buffer).takeWhile inWord) s.msgTree = some mptr ∧ call.parc ≤ maxPara + 1 ∧
        (mptr.flags &&& mflgExtra = 0 →
          call.params = rfcParams (max 1 (min mptr.parameters maxPara)) (argumentText (clientBody buffer)))) ∧
    (∀ para buffer, parseServer world cptr s para buffer ≠ .error .outsidePara ∧
      (∀ numeric newTags source call,
        parseServer world cptr s para buffer = .ok (.numeric numeric newTags source call) → call.parc ≤ maxPara + 1) ∧
      ∀ mptr source call, parseServer world cptr s para buffer = .ok (.handled mptr source call) →
        (msgTreeParse ((serverBody buffer).takeWhile inWord) s.tokTree).or
          (msgTreeParse ((serverBody buffer).takeWhile inWord) s.msgTree) = some mptr ∧ call.parc ≤ maxPara + 1 ∧
          call.params = rfcParams (max 1 (min mptr.parameters maxPara)) (argumentText (serverBody buffer))) ∧
    ∀ dead isUser name para para' fromClient fromServer mptr source call call', mptr.flags &&& mflgExtra = 0 →
      parseClient s dead isUser name para fromClient = .ok (.handled mptr call) →
      parseServer world cptr s para' fromServer = .ok (.handled mptr source call') →
      argumentText (clientBody fromClient) = argumentText (serverBody fromServer) → call.params = call'.params := by
  have client (dead isUser name para buffer) := parseClient_spec s dead isUser name para buffer
  have server (para buffer) := parseServer_cases s world cptr para buffer
  have server_right {para buffer mptr source call}
      (handled : parseServer world cptr s para buffer = .ok (.handled mptr source call)) :
      (msgTreeParse ((serverBody buffer).takeWhile inWord) s.tokTree).or
          (msgTreeParse ((serverBody buffer).takeWhile inWord) s.msgTree) = some mptr ∧
        call.Right mptr (serverBody buffer) := by
    rcases server para buffer with ⟨killed, drops⟩ | ⟨source, sender, ch, -, -, command⟩
    · cases handled.symm.trans drops
    · rw [handled] at command
      cases command with | handled name mptr call right lookup => exact ⟨lookup, right⟩
  refine ⟨fun dead isUser name para buffer => ?_, fun para buffer => ⟨?_, ?_, ?_⟩, ?_⟩
  · obtain ⟨outcome, parses, handles⟩ := client dead isUser name para buffer
    refine ⟨outcome, parses, fun mptr call handled => ?_⟩
    obtain ⟨lookup, bound, right⟩ := handles mptr call handled
    exact ⟨lookup, bound, fun plain => (right plain).params⟩
  · intro outside
    rcases server para buffer with ⟨killed, drops⟩ | ⟨source, sender, ch, -, -, command⟩
    · cases outside.symm.trans drops
    · rw [outside] at command
      cases command
  · intro numeric newTags source call is_numeric
    rcases server para buffer with ⟨killed, drops⟩ | ⟨source, sender, ch, -, -, command⟩
    · cases is_numeric.symm.trans drops
    · rw [is_numeric] at command
      cases command with | numeric number call bound nonzero => exact bound
  · intro mptr source call handled
    obtain ⟨lookup, right⟩ := server_right handled
    exact ⟨lookup, right.bound, right.params⟩
  · intro dead isUser name para para' fromClient fromServer mptr source call call' plain parses parses' same
    obtain ⟨outcome, ok, handles⟩ := client dead isUser name para fromClient
    obtain ⟨-, -, right⟩ := handles mptr call (Except.ok.inj (ok.symm.trans parses))
    rw [(right plain).params, (server_right parses').2.params, same]

end Ircd.Parse
