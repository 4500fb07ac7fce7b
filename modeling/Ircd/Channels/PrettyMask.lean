import Ircd.Silences.Silence

/-! `pretty_mask`, as the single pass over a mask that it is.

What it makes of a mask is left as it is when it is given to it again.
-/

set_option autoImplicit false

namespace Ircd.Channels
open Ircd.Auth (userLen hostLen)
open Ircd.Silences (cutStart)

/-- `nick`, `user` and `host`: where they begin in the mask, or `none` for `star`. -/
structure MaskParts where
  nick : Option Nat
  user : Option Nat
  host : Option Nat
  deriving DecidableEq, Repr

/-- The inner loop: the host is behind the last `@`. -/
def lastAt : List Char → Nat → Option Nat → Option Nat
  | [], _, host => host
  | c :: rest, ptr, host => lastAt rest (ptr + 1) (if c = '@' then some (ptr + 1) else host)

/-- The pass over the characters; `dotted` is whether there is a `last_dot`. -/
def scanMask : List Char → Nat → Bool → MaskParts
  | [], _, dotted => if dotted then ⟨none, none, some 0⟩ else ⟨some 0, none, none⟩
  | c :: rest, ptr, dotted =>
    if c = '!' then ⟨some 0, some (ptr + 1), lastAt rest (ptr + 1) none⟩
    else if c = '@' then ⟨none, some 0, lastAt rest (ptr + 1) (some (ptr + 1))⟩
    else scanMask rest (ptr + 1) (dotted || c = '.' || c = ':')

def between (mask : List Char) (start stop : Nat) : List Char := (mask.take stop).drop start

/-- What is printed into `retmask`. The characters that are overwritten in the mask are not read
behind that. -/
def maskText (mask : List Char) : List Char :=
  let parts := scanMask mask 0 false
  let nickEnd := match parts.user with
    | none => mask.length
    | some user => user - 1
  let userEnd := match parts.host with
    | none => mask.length
    | some host => host - 1
  let nick := match parts.nick with
    | none => ['*']
    | some nick => (between mask nick nickEnd).take nickLen
  let user := match parts.user with
    | none => ['*']
    | some user => cutStart userLen (between mask user userEnd)
  let host := match parts.host with
    | none => ['*']
    | some host => cutStart hostLen (between mask host mask.length)
  nick ++ '!' :: user ++ '@' :: host

def retmaskSize : Nat := nickLen + userLen + hostLen + 3

/-- `pretty_mask`: `ircd_snprintf` into the buffer. -/
def prettyMask (mask : List Char) : List Char := (maskText mask).take (retmaskSize - 1)

structure IsNickUserHost (text nick user host : List Char) : Prop where
  shape : text = nick ++ '!' :: user ++ '@' :: host
  first : '!' ∉ nick
  last : '@' ∉ host
  nick_fits : nick.length ≤ nickLen
  user_fits : user.length ≤ userLen
  host_fits : host.length ≤ hostLen

def Unseparated (text : List Char) : Prop := '!' ∉ text ∧ '@' ∉ text

inductive MaskShape : (mask nick user host : List Char) → Prop
  | nick {mask : List Char} (before : Unseparated mask) (plain : ¬('.' ∈ mask ∨ ':' ∈ mask)) :
    MaskShape mask mask ['*'] ['*']
  | host {mask : List Char} (before : Unseparated mask) (dotted : '.' ∈ mask ∨ ':' ∈ mask) :
    MaskShape mask ['*'] ['*'] mask
  | nickUser {nick user : List Char} (before : Unseparated nick) (last : '@' ∉ user) :
    MaskShape (nick ++ '!' :: user) nick user ['*']
  | userHost {front rest user host : List Char} (before : Unseparated front) (last : '@' ∉ host)
    (same : user ++ '@' :: host = front ++ '@' :: rest) : MaskShape (user ++ '@' :: host) ['*'] user host
  | full {nick user host : List Char} (before : Unseparated nick) (last : '@' ∉ host) :
    MaskShape (nick ++ '!' :: (user ++ '@' :: host)) nick user host

theorem unseparated_cons {c : Char} {text : List Char} :
    Unseparated (c :: text) ↔ c ≠ '!' ∧ c ≠ '@' ∧ Unseparated text := by
  simp only [Unseparated, List.mem_cons, not_or, ne_comm (b := c)]
  tauto

theorem split_first (mask : List Char) : ∃ front rest, mask = front ++ rest ∧ Unseparated front ∧
    (rest = [] ∨ ∃ tail, rest = '!' :: tail ∨ rest = '@' :: tail) := by
  induction mask with
  | nil => exact ⟨[], [], rfl, ⟨List.not_mem_nil, List.not_mem_nil⟩, .inl rfl⟩
  | cons c mask ih =>
    by_cases bang : c = '!'
    · exact ⟨[], _, rfl, ⟨List.not_mem_nil, List.not_mem_nil⟩, .inr ⟨mask, .inl (by rw [bang])⟩⟩
    by_cases sign : c = '@'
    · exact ⟨[], _, rfl, ⟨List.not_mem_nil, List.not_mem_nil⟩, .inr ⟨mask, .inr (by rw [sign])⟩⟩
    obtain ⟨front, rest, rfl, unseparated, next⟩ := ih
    exact ⟨c :: front, rest, rfl, unseparated_cons.mpr ⟨bang, sign, unseparated⟩, next⟩

theorem split_last {text : List Char} (mem : '@' ∈ text) : ∃ user host, text = user ++ '@' :: host ∧ '@' ∉ host :=
  ⟨nuPart text, hostPart text, (parts_append mem).symm, hostPart_free text⟩

theorem maskShape_total (mask : List Char) : ∃ nick user host, MaskShape mask nick user host := by
  obtain ⟨front, rest, rfl, before, rfl | ⟨tail, rfl | rfl⟩⟩ := split_first mask
  · rw [List.append_nil]
    by_cases dotted : '.' ∈ front ∨ ':' ∈ front
    · exact ⟨_, _, _, .host before dotted⟩
    · exact ⟨_, _, _, .nick before dotted⟩
  · by_cases last : '@' ∈ tail
    · obtain ⟨user, host, rfl, free⟩ := split_last last
      exact ⟨_, _, _, .full before free⟩
    · exact ⟨_, _, _, .nickUser before last⟩
  · have sign : '@' ∈ front ++ '@' :: tail := by simp
    obtain ⟨user, host, shape, free⟩ := split_last sign
    rw [shape]
    exact ⟨_, _, _, .userHost before free shape.symm⟩

theorem lastAt_plain {text : List Char} (plain : '@' ∉ text) (ptr : Nat) (host : Option Nat) :
    lastAt text ptr host = host := by
  induction text generalizing ptr with
  | nil => rfl
  | cons c rest ih =>
    rw [lastAt, if_neg (fun same : c = '@' => plain (same ▸ List.mem_cons_self)),
      ih fun mem => plain (List.mem_cons_of_mem c mem)]

theorem lastAt_append (user : List Char) {host : List Char} (last : '@' ∉ host) (ptr : Nat) (before : Option Nat) :
    lastAt (user ++ '@' :: host) ptr before = some (ptr + user.length + 1) := by
  induction user generalizing ptr before with
  | nil => rw [List.nil_append, lastAt, if_pos rfl, lastAt_plain last]; rfl
  | cons c rest ih =>
    rw [List.cons_append, lastAt, ih]
    simp only [List.length_cons, Option.some.injEq]
    omega

theorem lastAt_front {front : List Char} (plain : '@' ∉ front) (rest : List Char) (ptr : Nat) (host : Option Nat) :
    lastAt (front ++ rest) ptr host = lastAt rest (ptr + front.length) host := by
  induction front generalizing ptr with
  | nil => rfl
  | cons c front ih =>
    rw [List.cons_append, lastAt, if_neg (fun same : c = '@' => plain (same ▸ List.mem_cons_self)),
      ih fun mem => plain (List.mem_cons_of_mem c mem), List.length_cons, Nat.add_right_comm, Nat.add_assoc]

theorem scanMask_front {front : List Char} (before : Unseparated front) (rest : List Char) (ptr : Nat)
    (dotted : Bool) : scanMask (front ++ rest) ptr dotted =
      scanMask rest (ptr + front.length) (dotted || front.any fun c => c = '.' || c = ':') := by
  induction front generalizing ptr dotted with
  | nil => simp
  | cons c front ih =>
    obtain ⟨bang, sign, before⟩ := unseparated_cons.mp before
    rw [List.cons_append, scanMask, if_neg bang, if_neg sign, ih before, List.length_cons, List.any_cons]
    congr 1
    · omega
    · simp only [Bool.or_assoc]

theorem dotted_iff {text : List Char} :
    (text.any fun c => c = '.' || c = ':') = true ↔ '.' ∈ text ∨ ':' ∈ text := by
  simp only [List.any_eq_true, Bool.or_eq_true, decide_eq_true_eq]
  constructor
  · rintro ⟨c, mem, rfl | rfl⟩
    · exact .inl mem
    · exact .inr mem
  · rintro (mem | mem)
    · exact ⟨_, mem, .inl rfl⟩
    · exact ⟨_, mem, .inr rfl⟩

theorem between_eq {mask : List Char} (front text rest : List Char) (shape : mask = front ++ text ++ rest)
    {start stop : Nat} (starts : start = front.length) (stops : stop = start + text.length) :
    between mask start stop = text := by
  rw [between, shape, stops, starts, ← List.length_append, List.take_left, List.drop_left]

theorem cutStart_fits {max : Nat} {part : List Char} (fits : part.length ≤ max) : cutStart max part = part :=
  if_neg (Nat.not_lt.mpr fits)

theorem maskText_of {mask nick user host : List Char} (shape : MaskShape mask nick user host) :
    maskText mask = nick.take nickLen ++ '!' :: cutStart userLen user ++ '@' :: cutStart hostLen host := by
  have star_user : cutStart userLen ['*'] = ['*'] := rfl
  have star_host : cutStart hostLen ['*'] = ['*'] := rfl
  have star_nick : ['*'].take nickLen = ['*'] := rfl
  cases shape with
  | nick before plain =>
    have scan := scanMask_front before [] 0 false
    rw [List.append_nil, Bool.false_or, Bool.eq_false_iff.mpr (mt dotted_iff.mp plain)] at scan
    have whole : between mask 0 mask.length = mask := between_eq [] mask [] (by simp) rfl (by simp)
    rw [maskText, scan, scanMask, star_user, star_host]
    simp only [Bool.false_eq_true, if_false, whole]
  | host before dotted =>
    have scan := scanMask_front before [] 0 false
    rw [List.append_nil, Bool.false_or, dotted_iff.mpr dotted] at scan
    have whole : between mask 0 mask.length = mask := between_eq [] mask [] (by simp) rfl (by simp)
    rw [maskText, scan, scanMask, star_user, star_nick]
    simp only [if_true, whole]
  | @nickUser nick user before last =>
    have scan := scanMask_front before ('!' :: user) 0 false
    rw [scanMask, if_pos rfl, lastAt_plain last, Nat.zero_add] at scan
    have front : between (nick ++ '!' :: user) 0 nick.length = nick :=
      between_eq [] nick ('!' :: user) rfl rfl (Nat.zero_add _).symm
    have behind : between (nick ++ '!' :: user) (nick.length + 1) (nick ++ '!' :: user).length = user :=
      between_eq (nick ++ ['!']) user [] (by simp) (by simp) (by simp; omega)
    rw [maskText, scan, star_host]
    simp only [Nat.add_sub_cancel, front, behind]
  | @userHost front rest user host before last same =>
    have scan := scanMask_front before ('@' :: rest) 0 false
    have found : lastAt rest (front.length + 1) (some (front.length + 1)) = some (user.length + 1) := by
      have whole := lastAt_append user last 0 none
      rw [same, lastAt_front before.2, lastAt, if_pos rfl] at whole
      simpa using whole
    rw [← same, scanMask, if_neg (by decide), if_pos rfl, Nat.zero_add, found] at scan
    have front : between (user ++ '@' :: host) 0 user.length = user :=
      between_eq [] user ('@' :: host) rfl rfl (Nat.zero_add _).symm
    have behind : between (user ++ '@' :: host) (user.length + 1) (user ++ '@' :: host).length = host :=
      between_eq (user ++ ['@']) host [] (by simp) (by simp) (by simp; omega)
    rw [maskText, scan, star_nick]
    simp only [Nat.add_sub_cancel, front, behind]
  | @full nick user host before last =>
    have scan := scanMask_front before ('!' :: (user ++ '@' :: host)) 0 false
    rw [scanMask, if_pos rfl, lastAt_append user last, Nat.zero_add] at scan
    generalize whole : nick ++ '!' :: (user ++ '@' :: host) = mask at *
    have front : between mask 0 nick.length = nick :=
      between_eq [] nick ('!' :: (user ++ '@' :: host)) whole.symm rfl (Nat.zero_add _).symm
    have middle : between mask (nick.length + 1) (nick.length + 1 + user.length) = user :=
      between_eq (nick ++ ['!']) user ('@' :: host) (by simp [← whole]) (by simp) rfl
    have behind : between mask (nick.length + 1 + user.length + 1) mask.length = host :=
      between_eq (nick ++ '!' :: user ++ ['@']) host [] (by simp [← whole]) (by simp; omega)
        (by simp [← whole]; omega)
    rw [maskText, scan]
    simp only [Nat.add_sub_cancel, front, middle, behind]

theorem cutStart_length {max : Nat} (room : 0 < max) (part : List Char) : (cutStart max part).length ≤ max := by
  unfold cutStart
  split
  · rw [List.length_cons, List.length_drop]
    omega
  · omega

theorem cutStart_subset {max : Nat} {part : List Char} {c : Char} (mem : c ∈ cutStart max part) :
    c = '*' ∨ c ∈ part := by
  unfold cutStart at mem
  split at mem
  · exact (List.mem_cons.mp mem).imp_right List.mem_of_mem_drop
  · exact .inr mem

theorem maskShape_nick {mask nick user host : List Char} (shape : MaskShape mask nick user host) :
    Unseparated nick ∧ '@' ∉ host := by
  have star : Unseparated ['*'] := ⟨by decide, by decide⟩
  cases shape with
  | nick before plain => exact ⟨before, star.2⟩
  | host before dotted => exact ⟨star, before.2⟩
  | nickUser before last => exact ⟨before, star.2⟩
  | userHost before last same => exact ⟨star, last⟩
  | full before last => exact ⟨before, last⟩

theorem maskText_parts (mask : List Char) : ∃ nick user host, Unseparated nick ∧
    IsNickUserHost (maskText mask) nick user host := by
  obtain ⟨nick, user, host, shape⟩ := maskShape_total mask
  obtain ⟨before, last⟩ := maskShape_nick shape
  have free : Unseparated (nick.take nickLen) :=
    ⟨fun mem => before.1 (List.mem_of_mem_take mem), fun mem => before.2 (List.mem_of_mem_take mem)⟩
  refine ⟨_, _, _, free, maskText_of shape, free.1, ?_, ?_, ?_, ?_⟩
  · intro mem
    rcases cutStart_subset mem with same | mem
    · exact absurd same (by decide)
    · exact last mem
  · rw [List.length_take]
    omega
  · exact cutStart_length (by decide) user
  · exact cutStart_length (by decide) host

theorem prettyMask_eq (mask : List Char) :
    prettyMask mask = maskText mask ∧ (maskText mask).length < retmaskSize := by
  obtain ⟨nick, user, host, -, parts⟩ := maskText_parts mask
  have room : (maskText mask).length < retmaskSize := by
    have nick_fits := parts.nick_fits
    have user_fits := parts.user_fits
    have host_fits := parts.host_fits
    rw [parts.shape, retmaskSize]
    simp only [List.length_append, List.length_cons]
    omega
  exact ⟨List.take_of_length_le (by omega), room⟩

theorem maskText_kept {text nick user host : List Char} (before : Unseparated nick)
    (parts : IsNickUserHost text nick user host) : maskText text = text := by
  have shape : text = nick ++ '!' :: (user ++ '@' :: host) := by
    rw [parts.shape, List.append_assoc, List.cons_append]
  rw [shape, maskText_of (.full before parts.last), List.take_of_length_le parts.nick_fits,
    cutStart_fits parts.user_fits, cutStart_fits parts.host_fits, List.append_assoc, List.cons_append]

/-- What `pretty_mask` gives is a mask in its form, it fits, and it is left as it is. -/
theorem prettyMask_canonical (mask : List Char) :
    (∃ nick user host, IsNickUserHost (prettyMask mask) nick user host) ∧ (maskText mask).length < retmaskSize ∧
      prettyMask (prettyMask mask) = prettyMask mask := by
  obtain ⟨nick, user, host, before, parts⟩ := maskText_parts mask
  obtain ⟨same, room⟩ := prettyMask_eq mask
  rw [same]
  refine ⟨⟨nick, user, host, parts⟩, room, ?_⟩
  rw [(prettyMask_eq _).1, maskText_kept before parts]

theorem span_unseparated {front rest : List Char} (before : Unseparated front)
    (next : rest = [] ∨ ∃ tail, rest = '!' :: tail ∨ rest = '@' :: tail) :
    (front ++ rest).span (fun c => c ≠ '!' && c ≠ '@') = (front, rest) := by
  have kept : ∀ c ∈ front, (decide (c ≠ '!') && decide (c ≠ '@')) = true := by
    intro c mem
    simp only [Bool.and_eq_true, decide_eq_true_eq]
    exact ⟨fun same => before.1 (same ▸ mem), fun same => before.2 (same ▸ mem)⟩
  have stops : rest.takeWhile (fun c => c ≠ '!' && c ≠ '@') = [] ∧
      rest.dropWhile (fun c => c ≠ '!' && c ≠ '@') = rest := by
    rcases next with rfl | ⟨tail, rfl | rfl⟩ <;> exact ⟨rfl, rfl⟩
  rw [List.span_eq_takeWhile_dropWhile, List.takeWhile_append_of_pos kept, List.dropWhile_append_of_pos kept,
    stops.1, stops.2, List.append_nil]

theorem prettyMask_cases (mask : List Char) : prettyMask mask = Silences.prettyMask mask := by
  rw [(prettyMask_eq mask).1]
  obtain ⟨front, rest, rfl, before, next⟩ := split_first mask
  have span := span_unseparated before next
  unfold Silences.prettyMask
  rw [span]
  rcases next with rfl | ⟨tail, rfl | rfl⟩
  · rw [List.append_nil]
    dsimp only
    split
    next dotted => rw [maskText_of (.host before dotted)]; rfl
    next plain => rw [maskText_of (.nick before plain)]; rfl
  · by_cases last : '@' ∈ tail
    · have shape : MaskShape (front ++ '!' :: (nuPart tail ++ '@' :: hostPart tail)) front (nuPart tail)
          (hostPart tail) := .full before (hostPart_free tail)
      rw [parts_append last] at shape
      rw [maskText_of shape]
      simp only [if_pos last]
    · rw [maskText_of (.nickUser before last)]
      simp only [if_neg last]
      rfl
  · have sign : '@' ∈ front ++ '@' :: tail := by simp
    have shape := MaskShape.userHost before (hostPart_free _) (parts_append sign)
    rw [parts_append sign] at shape
    rw [maskText_of shape]
    rfl

end Ircd.Channels
