import Ircd.Text.Lines

/-! User modes between servers: the letters of `umode_str` and `send_umode`, and what
`set_user_mode` makes of them for a user of another server.

The two local modes, which neither function sends, are left out, and so is the mask of server
notices. `ddb` says whether the server is built with `DDB`.
-/

set_option autoImplicit false

namespace Ircd.Users
open Ircd.Text

inductive UFlag where
  | oper | invisible | wallop | deaf | chserv | debug | account | nickSuspend | admin | coder | helper | servicesBot
  | userBot | hiddenHost | msgOnlyReg | stripColour | noChan | commonChansOnly | viewHiddenHost | ssl | noIdle
  | whoisNotice
  deriving DecidableEq, Repr

abbrev UFlags := UFlag → Bool

def UFlags.none : UFlags := fun _ => false

def UFlags.put (flags : UFlags) (f : UFlag) (value : Bool) : UFlags := fun g => if g = f then value else flags g

def userModeList : List (UFlag × Char) :=
  [(.oper, 'o'), (.invisible, 'i'), (.wallop, 'w'), (.deaf, 'd'), (.chserv, 'k'), (.debug, 'g'), (.account, 'r'),
    (.nickSuspend, 'S'), (.admin, 'a'), (.coder, 'C'), (.helper, 'h'), (.servicesBot, 'B'), (.userBot, 'b'),
    (.hiddenHost, 'x'), (.msgOnlyReg, 'R'), (.stripColour, 'c'), (.noChan, 'n'), (.commonChansOnly, 'q'),
    (.viewHiddenHost, 'X'), (.ssl, 'z'), (.noIdle, 'I'), (.whoisNotice, 'N')]

def accountText (account : List Char) (accCreate : Nat) : List Char :=
  account ++ if accCreate = 0 then [] else ':' :: Nat.toDigits 10 accCreate

/-- `umode_str`; `propagate` is `PRIV_PROPAGATE`. -/
def umodeStr (flags : UFlags) (propagate : Bool) (account : List Char) (accCreate : Nat) : List Char :=
  let flags' := if propagate then flags else flags.put .oper false
  userModeList.filterMap (fun entry => if flags' entry.1 then some entry.2 else none) ++
    if flags .account then ' ' :: accountText account accCreate else []

inductive What where
  | add | del
  deriving DecidableEq, Repr

/-- The loop of `send_umode`, with the sign that was written last. -/
def changeText (old new : UFlags) : Option What → List (UFlag × Char) → List Char
  | _, [] => []
  | what, (f, c) :: table =>
    if old f = new f then changeText old new what table
    else if old f then
      if what = some .del then c :: changeText old new what table
      else '-' :: c :: changeText old new (some .del) table
    else if what = some .add then c :: changeText old new what table
    else '+' :: c :: changeText old new (some .add) table

/-- The change that `send_umode` writes with `SEND_UMODES`. -/
def sendUmode (old new : UFlags) : List Char := changeText old new none userModeList

def isSnomask : List Char → Bool
  | [] => false
  | c :: word => if isDigit c then true else if isAlpha c then false else isSnomask word

def simpleUmode : Char → Option UFlag
  | 'w' => some .wallop
  | 'o' => some .oper
  | 'i' => some .invisible
  | 'd' => some .deaf
  | 'k' => some .chserv
  | 'g' => some .debug
  | 'S' => some .nickSuspend
  | 'a' => some .admin
  | 'C' => some .coder
  | 'h' => some .helper
  | 'B' => some .servicesBot
  | 'b' => some .userBot
  | 'R' => some .msgOnlyReg
  | 'c' => some .stripColour
  | 'n' => some .noChan
  | 'q' => some .commonChansOnly
  | 'X' => some .viewHiddenHost
  | 'z' => some .ssl
  | 'I' => some .noIdle
  | 'W' => some .whoisNotice
  | _ => none

/-- The state of `set_user_mode`: the parameters behind the current one, and how many of them
the caller gave it to read. -/
structure UmodeState where
  flags : UFlags
  what : What
  next : List (List Char)
  inside : Nat
  hide : Bool

def UmodeState.skip (st : UmodeState) : UmodeState := { st with next := st.next.drop 1, inside := st.inside - 1 }

def modeLetter (ddb : Bool) (st : UmodeState) (c : Char) : UmodeState :=
  if c = '+' then { st with what := .add }
  else if c = '-' then { st with what := .del }
  else if c = 's' then if isSnomask (st.next.headD []) then st.skip else st
  else if c = 'x' then if st.what = .add then { st with hide := true } else st
  else if c = 'r' then
    if ddb then { st with flags := st.flags.put .account (st.what = .add) }
    else if st.next ≠ [] ∧ st.what = .add then { st.skip with flags := st.flags.put .account true }
    else st
  else if c = 'O' then if st.what = .add then st else { st with flags := st.flags.put .oper false }
  else
    match simpleUmode c with
    | some f => { st with flags := st.flags.put f (st.what = .add) }
    | none => st

def modeLoop (ddb : Bool) : Nat → UmodeState → UmodeState
  | 0, st => st
  | left + 1, st =>
    match st.inside, st.next with
    | inside + 1, param :: next =>
      modeLoop ddb left (param.foldl (modeLetter ddb) { st with next := next, inside := inside })
    | _, _ => st

/-- `set_user_mode` for modes that another server sends; `behind` are the parameters of the
message behind those of the modes. -/
def setUserMode (ddb : Bool) (old : UFlags) (modes behind : List (List Char)) : UFlags :=
  let st := modeLoop ddb modes.length ⟨old, .add, modes ++ behind, modes.length, false⟩
  if !old .hiddenHost && st.hide then st.flags.put .hiddenHost true else st.flags

/-- The modes that a server gives a user whom another server introduces. -/
def introduced (ddb : Bool) (modes : List Char) (behind : List (List Char)) : UFlags :=
  if modes = [] then .none else setUserMode ddb .none (splitParams maxPara none ('+' :: modes)) behind

/-- The modes after a change that another server sends, alone in its parameter. -/
def changed (ddb : Bool) (old : UFlags) (modes : List Char) : UFlags := setUserMode ddb old [modes] []

@[simp] theorem UFlags.put_same (flags : UFlags) (f : UFlag) (value : Bool) : flags.put f value f = value := if_pos rfl

theorem UFlags.put_other (flags : UFlags) {f g : UFlag} (value : Bool) (other : g ≠ f) : flags.put f value g = flags g :=
  if_neg other

@[simp] theorem UFlags.put_self (flags : UFlags) (f : UFlag) : flags.put f (flags f) = flags := by
  funext g
  by_cases same : g = f
  · rw [same, put_same]
  · exact put_other flags _ same

/-- The letter of a flag is the one that `set_user_mode` reads, but for `r` and `x`, which it
reads in their own way, and for `N`, which it does not know. -/
def Known (entry : UFlag × Char) : Prop :=
  entry = (.account, 'r') ∨ entry = (.hiddenHost, 'x') ∨ entry = (.whoisNotice, 'N') ∨
    simpleUmode entry.2 = some entry.1 ∧ entry.1 ≠ .account ∧ entry.1 ≠ .hiddenHost ∧ entry.1 ≠ .whoisNotice

instance (entry : UFlag × Char) : Decidable (Known entry) := inferInstanceAs (Decidable (_ ∨ _))

/-- The value of a flag behind its letter; `more` says that there is another parameter. -/
def decoded (ddb more : Bool) (f : UFlag) (value before : Bool) : Bool :=
  match f with
  | .whoisNotice | .hiddenHost => before
  | .account => if ddb then value else more && value || before
  | _ => value

def consumes (ddb more : Bool) (f : UFlag) (value : Bool) : Bool := f = .account && !ddb && more && value

theorem modeLetter_known (ddb : Bool) (st : UmodeState) {f : UFlag} {c : Char} (known : Known (f, c)) :
    (modeLetter ddb st c).flags =
        st.flags.put f (decoded ddb (st.next ≠ []) f (st.what = .add) (st.flags f)) ∧
      (modeLetter ddb st c).what = st.what ∧
      (modeLetter ddb st c).next =
        (if consumes ddb (st.next ≠ []) f (st.what = .add) then st.next.drop 1 else st.next) ∧
      (modeLetter ddb st c).inside =
        (if consumes ddb (st.next ≠ []) f (st.what = .add) then st.inside - 1 else st.inside) ∧
      (modeLetter ddb st c).hide = (st.hide || (f = .hiddenHost && st.what = .add)) := by
  rcases known with entry | entry | entry | ⟨letter, not_account, not_hidden, not_notice⟩
  · obtain ⟨rfl, rfl⟩ := Prod.mk.inj entry
    obtain ⟨flags, what, next, inside, hide⟩ := st
    cases ddb <;> cases next <;> cases what <;> simp [modeLetter, decoded, consumes, UmodeState.skip]
  · obtain ⟨rfl, rfl⟩ := Prod.mk.inj entry
    cases what : st.what <;> simp [modeLetter, decoded, consumes, what]
  · obtain ⟨rfl, rfl⟩ := Prod.mk.inj entry
    simp [modeLetter, simpleUmode, decoded, consumes]
  · have special : ∀ d ∈ ['+', '-', 's', 'x', 'r', 'O'], simpleUmode d = none := by decide
    have other : ∀ d ∈ ['+', '-', 's', 'x', 'r', 'O'], c ≠ d := by
      rintro d mem rfl
      exact absurd (letter.symm.trans (special c mem)) nofun
    simp only [List.forall_mem_cons, List.not_mem_nil, false_implies, implies_true, and_true] at other
    obtain ⟨plus, minus, notice, hidden, account, locop⟩ := other
    have value : decoded ddb (st.next ≠ []) f (st.what = .add) (st.flags f) = decide (st.what = .add) := by
      cases f <;> first | rfl | exact absurd rfl not_account | exact absurd rfl not_hidden | exact absurd rfl not_notice
    simp only [modeLetter, plus, minus, notice, hidden, account, locop, if_false, letter, value]
    simp [consumes, not_account, not_hidden]

def lists (table : List (UFlag × Char)) (f : UFlag) : Bool := table.any fun entry => entry.1 = f

theorem lists_cons (f : UFlag) (c : Char) (table : List (UFlag × Char)) (g : UFlag) :
    lists ((f, c) :: table) g = (decide (f = g) || lists table g) := rfl

structure Decodes (ddb : Bool) (old new : UFlags) (table : List (UFlag × Char)) (st st' : UmodeState) : Prop where
  listed : ∀ g, lists table g = true → st'.flags g =
    if old g = new g then st.flags g else decoded ddb (st.next ≠ []) g (new g) (st.flags g)
  unlisted : ∀ g, lists table g = false → st'.flags g = st.flags g
  inside : st'.inside = if lists table .account && (old .account != new .account) &&
      consumes ddb (st.next ≠ []) .account (new .account) then st.inside - 1 else st.inside
  hide : st'.hide = (st.hide || (lists table .hiddenHost && !old .hiddenHost && new .hiddenHost))

theorem decoded_more (ddb more more' : Bool) {f : UFlag} (other : f ≠ .account) (value before : Bool) :
    decoded ddb more f value before = decoded ddb more' f value before := by
  cases f <;> first | rfl | exact absurd rfl other

variable {st : UmodeState}

theorem Decodes.skip {ddb : Bool} {old new : UFlags} {f : UFlag} {c : Char} {table : List (UFlag × Char)}
    {st' : UmodeState} (same : old f = new f) (here : lists table f = false)
    (rest : Decodes ddb old new table st st') :
    Decodes ddb old new ((f, c) :: table) st st' where
  listed := by
    intro g mem
    rw [lists_cons, Bool.or_eq_true, decide_eq_true_eq] at mem
    rcases mem with rfl | mem
    · rw [if_pos same, rest.unlisted f here]
    · exact rest.listed g mem
  unlisted := by
    intro g other
    rw [lists_cons, Bool.or_eq_false_iff] at other
    exact rest.unlisted g other.2
  inside := by
    rw [rest.inside, lists_cons]
    by_cases account : f = .account
    · subst account
      simp [same, here]
    · simp [account]
  hide := by
    rw [rest.hide, lists_cons]
    by_cases hidden : f = .hiddenHost
    · subst hidden
      simp [same, here]
    · simp [hidden]

theorem Decodes.letter {ddb : Bool} {old new : UFlags} {f : UFlag} {c : Char} {table : List (UFlag × Char)}
    {st' : UmodeState} (known : Known (f, c)) (changes : old f ≠ new f) (value : decide (st.what = .add) = new f)
    (here : lists table f = false) (rest : Decodes ddb old new table (modeLetter ddb st c) st') :
    Decodes ddb old new ((f, c) :: table) st st' := by
  obtain ⟨flags, -, next, inside, hide⟩ := modeLetter_known ddb st known
  rw [value] at flags next inside hide
  have more (g : UFlag) (other : g ≠ f) (value before : Bool) :
      decoded ddb ((modeLetter ddb st c).next ≠ []) g value before = decoded ddb (st.next ≠ []) g value before := by
    by_cases account : f = .account
    · exact decoded_more ddb _ _ (account ▸ other) value before
    · have kept : consumes ddb (st.next ≠ []) f (new f) = false := by simp [consumes, account]
      rw [next, kept, if_neg Bool.false_ne_true]
  have apart {g : UFlag} (mem : lists table g = true) : g ≠ f := by
    rintro rfl
    rw [here] at mem
    exact absurd mem Bool.false_ne_true
  refine ⟨?_, ?_, ?_, ?_⟩
  · intro g mem
    rw [lists_cons, Bool.or_eq_true, decide_eq_true_eq] at mem
    rcases mem with rfl | mem
    · rw [rest.unlisted f here, flags, UFlags.put_same, if_neg changes]
    · rw [rest.listed g mem, more g (apart mem), flags, UFlags.put_other _ _ (apart mem)]
  · intro g other
    rw [lists_cons, Bool.or_eq_false_iff, decide_eq_false_iff_not] at other
    rw [rest.unlisted g other.2, flags, UFlags.put_other _ _ (Ne.symm other.1)]
  · rw [rest.inside, lists_cons]
    by_cases account : f = .account
    · subst account
      simp [here, inside, changes]
    · have kept : consumes ddb (st.next ≠ []) f (new f) = false := by simp [consumes, account]
      rw [next, inside, kept]
      simp [account]
  · rw [rest.hide, hide, lists_cons]
    by_cases hidden : f = .hiddenHost
    · subst hidden
      have turned : (!old .hiddenHost && new .hiddenHost) = new .hiddenHost := by
        cases before : old .hiddenHost <;> cases after : new .hiddenHost <;> simp_all
      simp [here, turned]
    · simp [hidden]

theorem changeText_decodes (ddb : Bool) (old new : UFlags) {table : List (UFlag × Char)}
    (known : ∀ entry ∈ table, Known entry) (once : table.Pairwise fun a b => b.1 ≠ a.1) {what : Option What}
    (sign : ∀ d, what = some d → st.what = d) :
    Decodes ddb old new table st ((changeText old new what table).foldl (modeLetter ddb) st) := by
  induction table generalizing what st with
  | nil => exact ⟨nofun, fun _ _ => rfl, by simp [changeText, lists], by simp [changeText, lists]⟩
  | cons entry table ih =>
    obtain ⟨f, c⟩ := entry
    have known_rest : ∀ entry ∈ table, Known entry := fun entry mem => known entry (List.mem_cons_of_mem _ mem)
    have known_here : Known (f, c) := known (f, c) List.mem_cons_self
    obtain ⟨apart, once_rest⟩ := List.pairwise_cons.mp once
    have here : lists table f = false := by simpa [lists] using apart
    by_cases same : old f = new f
    · rw [changeText, if_pos same]
      exact (ih known_rest once_rest sign).skip same here
    · -- the sign of the letter is there or is written before it
      have reaches : ∃ d, (changeText old new what ((f, c) :: table)).foldl (modeLetter ddb) st =
          (changeText old new (some d) table).foldl (modeLetter ddb) (modeLetter ddb { st with what := d } c) ∧
          decide (d = .add) = new f := by
        rw [changeText, if_neg same]
        cases before : old f with
        | true =>
          refine ⟨.del, ?_, ?_⟩
          · by_cases written : what = some .del
            · have now := sign .del written
              obtain ⟨flags, _, next, inside, hide⟩ := st
              cases now
              simp [written]
            · simp [written, modeLetter]
          · cases after : new f with
            | true => exact absurd (before.trans after.symm) same
            | false => rfl
        | false =>
          refine ⟨.add, ?_, ?_⟩
          · by_cases written : what = some .add
            · have now := sign .add written
              obtain ⟨flags, _, next, inside, hide⟩ := st
              cases now
              simp [written]
            · simp [written, modeLetter]
          · cases after : new f with
            | true => rfl
            | false => exact absurd (before.trans after.symm) same
      obtain ⟨d, text, value⟩ := reaches
      have step := modeLetter_known ddb { st with what := d } known_here
      have rest := ih known_rest once_rest 
        fun d' given => step.2.1.trans (Option.some.inj given)
      rw [text]
      have whole := rest.letter known_here same value here
      exact ⟨whole.listed, whole.unlisted, whole.inside, whole.hide⟩

theorem userModeList_known : ∀ entry ∈ userModeList, Known entry := by decide

theorem userModeList_once : userModeList.Pairwise fun a b => b.1 ≠ a.1 := by decide

theorem lists_userModeList (f : UFlag) : lists userModeList f = true := by cases f <;> decide

theorem hidden_put {old new : UFlags} (hide : st.hide = (!old .hiddenHost && new .hiddenHost))
    (kept : st.flags .hiddenHost = old .hiddenHost) (f : UFlag) :
    (if !old .hiddenHost && st.hide then st.flags.put .hiddenHost true else st.flags) f =
      if f = .hiddenHost then old f || new f else st.flags f := by
  by_cases hidden : f = .hiddenHost
  · subst hidden
    rw [if_pos rfl, hide]
    cases before : old .hiddenHost <;> cases after : new .hiddenHost <;> simp [kept, before]
  · rw [if_neg hidden]
    split
    · exact UFlags.put_other _ _ hidden
    · rfl

theorem changed_sendUmode (ddb : Bool) (old new : UFlags) (f : UFlag) :
    changed ddb old (sendUmode old new) f =
      if f = .hiddenHost then old f || new f else if old f = new f then old f else decoded ddb false f (new f) (old f) := by
  have decodes : Decodes ddb old new userModeList ⟨old, .add, [], 0, false⟩
      ((changeText old new none userModeList).foldl (modeLetter ddb) ⟨old, .add, [], 0, false⟩) :=
    changeText_decodes ddb old new userModeList_known userModeList_once nofun
  have flags (g : UFlag) := decodes.listed g (lists_userModeList g)
  have hide := decodes.hide
  rw [lists_userModeList, Bool.true_and, Bool.false_or] at hide
  have kept : ((changeText old new none userModeList).foldl (modeLetter ddb)
      ⟨old, .add, [], 0, false⟩).flags .hiddenHost = old .hiddenHost := by
    rw [flags]
    split <;> rfl
  have result := hidden_put hide kept f
  rw [flags f] at result
  exact result

theorem letters_eq_changeText (flags : UFlags) (table : List (UFlag × Char)) :
    table.filterMap (fun entry => if flags entry.1 then some entry.2 else none) =
      changeText .none flags (some .add) table := by
  induction table with
  | nil => rfl
  | cons entry table ih =>
    obtain ⟨f, c⟩ := entry
    cases set : flags f <;> simp [changeText, UFlags.none, set] <;> exact ih

/-- The account of a user: a word, and no timestamp where there is none. -/
structure AccountName (account : List Char) (accCreate : Nat) : Prop where
  word : account = [] ∧ accCreate = 0 ∨ MiddleWord account

theorem AccountName.text_word {account : List Char} {accCreate : Nat} (name : AccountName account accCreate) :
    accountText account accCreate = [] ∧ account = [] ∨ MiddleWord (accountText account accCreate) := by
  rcases name.word with ⟨rfl, rfl⟩ | ⟨nonempty, unbroken, first⟩
  · exact .inl ⟨rfl, rfl⟩
  · refine .inr ⟨?_, ?_, ?_⟩
    · simp [accountText, nonempty]
    · rw [accountText]
      split
      · simpa using unbroken
      · have digits := (printed_middle accCreate).unbroken
        simp [unbroken, digits]
    · obtain ⟨c, rest, rfl⟩ := List.exists_cons_of_ne_nil nonempty
      simpa [accountText] using first

def sentFlags (flags : UFlags) (propagate : Bool) : UFlags := if propagate then flags else flags.put .oper false

theorem sentFlags_apply (flags : UFlags) (propagate : Bool) (f : UFlag) :
    sentFlags flags propagate f = (flags f && (f ≠ .oper || propagate)) := by
  cases propagate
  · by_cases oper : f = .oper
    · simp [sentFlags, oper]
    · simp [sentFlags, oper, UFlags.put_other]
  · simp [sentFlags]

def letterWord (flags : UFlags) : List Char := '+' :: changeText .none flags (some .add) userModeList

theorem letterWord_middle (flags : UFlags) : MiddleWord (letterWord flags) := by
  refine ⟨List.cons_ne_nil _ _, ?_, by rw [letterWord, peek_cons]; decide⟩
  rw [letterWord, ← letters_eq_changeText]
  simp only [List.mem_cons, List.mem_filterMap, not_or, not_exists, not_and]
  refine ⟨by decide, fun entry mem letter => ?_⟩
  have visible : ∀ entry ∈ userModeList, entry.2 ≠ ' ' := by decide
  split at letter
  · exact visible entry mem (Option.some.inj letter)
  · cases letter

theorem params_umodeStr (flags : UFlags) (propagate : Bool) {account : List Char} {accCreate : Nat}
    (name : AccountName account accCreate) :
    splitParams maxPara none ('+' :: umodeStr flags propagate account accCreate) =
      letterWord (sentFlags flags propagate) ::
        if flags .account = true ∧ account ≠ [] then [accountText account accCreate] else [] := by
  have text : '+' :: umodeStr flags propagate account accCreate = letterWord (sentFlags flags propagate) ++
      if flags .account then ' ' :: accountText account accCreate else [] := by
    rw [umodeStr, letterWord, ← letters_eq_changeText]
    rfl
  have middle := letterWord_middle (sentFlags flags propagate)
  rw [text]
  cases registered : flags .account with
  | false => simpa using splitParams_single (by decide) middle
  | true =>
    rw [if_pos rfl, splitParams_front (by decide) middle]
    rcases name.text_word with ⟨empty, none⟩ | word
    · rw [empty, if_neg (fun given => given.2 none)]
      rfl
    · have some_account : account ≠ [] := by
        rintro rfl
        rcases name.word with ⟨-, rfl⟩ | given
        · exact word.nonempty rfl
        · exact given.nonempty rfl
      rw [splitParams_single (by decide) word, if_pos ⟨rfl, some_account⟩]

theorem letterWord_decodes (ddb : Bool) (flags : UFlags) (next : List (List Char)) (inside : Nat) :
    Decodes ddb .none flags userModeList ⟨.none, .add, next, inside, false⟩
      ((letterWord flags).foldl (modeLetter ddb) ⟨.none, .add, next, inside, false⟩) :=
  changeText_decodes ddb .none flags userModeList_known userModeList_once fun _ given => Option.some.inj given

theorem letterWord_flags (ddb : Bool) (flags : UFlags) {next : List (List Char)} (more : next ≠ []) (inside : Nat)
    {f : UFlag} (other : f ≠ .whoisNotice)
    (read : (letterWord flags).foldl (modeLetter ddb) ⟨.none, .add, next, inside, false⟩ = st) :
    (if !UFlags.none .hiddenHost && st.hide then st.flags.put .hiddenHost true else st.flags) f = flags f := by
  have decodes := letterWord_decodes ddb flags next inside
  rw [read] at decodes
  have value (g : UFlag) := decodes.listed g (lists_userModeList g)
  have hide := decodes.hide
  rw [lists_userModeList, Bool.true_and, Bool.false_or] at hide
  have kept : st.flags .hiddenHost = UFlags.none .hiddenHost := by
    rw [value]
    split <;> rfl
  rw [hidden_put hide kept f]
  by_cases hidden : f = .hiddenHost
  · rw [if_pos hidden]
    rfl
  · rw [if_neg hidden, value f]
    cases set : flags f <;> cases f <;>
      first | exact absurd rfl other | exact absurd rfl hidden | cases ddb <;> simp [UFlags.none, decoded, more]

theorem modeLoop_done (ddb : Bool) (left : Nat) (none : st.inside = 0) : modeLoop ddb left st = st := by
  cases left with
  | zero => rfl
  | succ left => rw [modeLoop, none]

theorem introduced_umodeStr (ddb : Bool) (flags : UFlags) (propagate : Bool) {account : List Char} {accCreate : Nat}
    (name : AccountName account accCreate) (unnamed : ddb = true → account = []) {behind : List (List Char)}
    (more : behind ≠ []) {f : UFlag} (other : f ≠ .whoisNotice) :
    introduced ddb (umodeStr flags propagate account accCreate) behind f = (flags f && (f ≠ .oper || propagate)) := by
  have read : introduced ddb (umodeStr flags propagate account accCreate) behind =
      setUserMode ddb .none (splitParams maxPara none ('+' :: umodeStr flags propagate account accCreate)) behind := by
    by_cases empty : umodeStr flags propagate account accCreate = []
    · rw [introduced, if_pos empty, empty]
      rfl
    · rw [introduced, if_neg empty]
  rw [read, params_umodeStr flags propagate name, ← sentFlags_apply]
  by_cases named : flags .account = true ∧ account ≠ []
  · have plain : ddb = false := by
      rw [← Bool.not_eq_true]
      exact fun built => named.2 (unnamed built)
    have registered : sentFlags flags propagate .account = true := by simp [sentFlags_apply, named.1]
    have decodes := letterWord_decodes ddb (sentFlags flags propagate) (accountText account accCreate :: behind) 1
    have inside := decodes.inside
    rw [lists_userModeList, registered, plain] at inside
    rw [if_pos named]
    apply letterWord_flags ddb _ (List.cons_ne_nil (accountText account accCreate) behind) 1 other
    rw [plain]
    exact (modeLoop_done false 1 (inside.trans rfl)).symm
  · rw [if_neg named]
    exact letterWord_flags ddb _ more 0 other rfl

/-- The modes that another server has of a user: after an introduction those of the user, an
operator that is not to be propagated apart; after a change those that were changed to, but
for a host that is shown again and, without `DDB`, the account. `+N` is not considered. -/
theorem umodes_decoded (ddb : Bool) :
    (∀ (flags : UFlags) (propagate : Bool) (account : List Char) (accCreate : Nat) (behind : List (List Char)),
      AccountName account accCreate → (ddb = true → account = []) → behind ≠ [] → ∀ f, f ≠ .whoisNotice →
        introduced ddb (umodeStr flags propagate account accCreate) behind f = (flags f && (f ≠ .oper || propagate))) ∧
    ∀ (old new : UFlags) (f : UFlag), f ≠ .whoisNotice →
      changed ddb old (sendUmode old new) f =
        if f = .hiddenHost then old f || new f else if f = .account ∧ ddb = false then old f else new f := by
  refine ⟨fun flags propagate account accCreate behind name unnamed more f other =>
    introduced_umodeStr ddb flags propagate name unnamed more other, ?_⟩
  intro old new f other
  rw [changed_sendUmode]
  by_cases hidden : f = .hiddenHost
  · rw [if_pos hidden, if_pos hidden]
  · rw [if_neg hidden, if_neg hidden]
    by_cases same : old f = new f
    · rw [if_pos same, same]
      split <;> rfl
    · rw [if_neg same]
      cases f <;> first | exact absurd rfl other | exact absurd rfl hidden | cases ddb <;> simp [decoded]

def quietUser : UFlags := UFlags.put (.put .none .invisible true) .hiddenHost true

theorem umodes_decoded_quiet :
    introduced true (umodeStr quietUser false [] 0) [['B'], ['A', 'A'], ['x']] .hiddenHost = true ∧
      changed false .none (sendUmode .none quietUser) .invisible = true := by
  refine ⟨((umodes_decoded true).1 quietUser false [] 0 [['B'], ['A', 'A'], ['x']] ⟨.inl ⟨rfl, rfl⟩⟩ (fun _ => rfl)
    nofun .hiddenHost nofun).trans rfl, ((umodes_decoded false).2 .none quietUser .invisible nofun).trans rfl⟩

/-- A global operator without `PRIV_PROPAGATE` is none on the other servers. -/
theorem oper_not_introduced :
    introduced true (umodeStr (UFlags.put .none .oper true) false [] 0) [['B'], ['A', 'A'], ['x']] ≠
      UFlags.put .none .oper true := by
  intro same
  exact absurd (congrFun same .oper) (by decide)

end Ircd.Users
