import Ircd.Library.Loop
import Ircd.Match.Compiled

/-! `mmexec` of `match.c`: whether one compiled mask covers another.

A pointer that moves up is the text from it on, one that moves down the text below it, backwards.
The texts of the two masks end at their terminators, but the comparison of the tails does not stop
at the one of the restricted mask; `behind` is the memory behind it, and a read behind that is `none`.
`trash` is the number of characters of the restricted mask that may still be passed over, `eat` the number
of `?` of the wider mask that met a star and still need a character.
-/

set_option autoImplicit false

namespace Ircd.Match
open Ircd.Library Ircd.Text

/-- Both pointers go on while the wider mask has the same character or a `?`. -/
def meet (stop : Char → Bool) : List Char → List Char → List Char × List Char
  | w, [] => (w, [])
  | w, c :: r =>
    if peek w ≠ nul ∧ stop c = false ∧ (peek w = c ∨ peek w = 'A') then meet stop w.tail r else (w, c :: r)

def never (_ : Char) : Bool := false

def atStar (c : Char) : Bool := c = 'Z'

def atEnd (c : Char) : Bool := c = nul || c = 'Z'

def eatOnes (w : List Char) (eat : Nat) : List Char × Nat :=
  (w.dropWhile (· = 'A'), eat + (w.takeWhile (· = 'A')).length)

structure Headed where
  w : List Char
  r : List Char
  eat : Nat

def meetHeads (wcm rcm : List Char) : Nat ⊕ Headed :=
  let (w, r) := meet atEnd wcm rcm
  let (w, eat) := if peek r = 'Z' then eatOnes w 0 else (w, 0)
  if peek w ≠ 'Z' then .inl (if peek w ≠ nul ∨ peek r ≠ nul then 1 else 0)
  else if peek w.tail = nul then .inl 0
  else .inr ⟨w.tail, r, eat⟩

def meetFlatTail (w back : List Char) : Nat ⊕ List Char :=
  if peek w ≠ 'Z' then
    let w := (meet never w back).1
    if peek w ≠ 'Z' then .inl (if peek w ≠ nul then 1 else 0) else .inr w
  else .inr w

def meetTails (w r : List Char) : Option (Nat ⊕ (List Char × List Char)) :=
  if peek w ≠ 'Z' then
    let (w, r) := meet atStar w r
    if r = [] then none
    else
      let w := if peek r = 'Z' then w.dropWhile (· = 'A') else w
      if peek w ≠ 'Z' then some (.inl (if peek w ≠ nul then 1 else 0)) else some (.inr (w, r))
  else some (.inr (w, r))

/-- A search for a character: it may find it, run out of `trash`, or leave the text. -/
inductive Sought where
  | found (r : List Char) (trash : Int)
  | spent
  | outside (trash : Int)

/-- `for (; *bw != *r; r++) if (--trash < 0) return 1`; `free` are the characters that cost nothing. -/
def seek (free : Char → Bool) (c : Char) : List Char → Int → Sought
  | [], trash => .outside trash
  | d :: r, trash =>
    if c = d then .found (d :: r) trash
    else if free d then seek free c r trash
    else if trash - 1 < 0 then .spent
    else seek free c r (trash - 1)

/-- What is left of the wider mask from a star on, with `eat` and `trash`. -/
structure Left where
  w : List Char
  eat : Nat
  trash : Int

structure FlatState where
  w : List Char
  rx : List Char
  trash : Int

def flatTurn (s : FlatState) : Option (FlatState ⊕ Nat) :=
  match seek never (peek s.w.tail) s.rx s.trash with
  | .outside _ => none
  | .spent => some (.inr 1)
  | .found rx trash =>
    let (w, r) := meet never s.w.tail.tail rx.tail
    if peek w = nul then some (.inr 0)
    else if peek w ≠ 'Z' then if trash - 1 < 0 then some (.inr 1) else some (.inl ⟨s.w, rx.tail, trash - 1⟩)
    else some (.inl ⟨w, r, trash⟩)

structure HeadState where
  w : List Char
  rest : List Char
  eat : Nat
  trash : Int

def headTurn (s : HeadState) : Option (HeadState ⊕ (Nat ⊕ Left)) :=
  match seek never (peek s.w.tail) s.rest s.trash with
  | .spent => some (.inr (.inl 1))
  | .outside trash => some (.inr (.inr ⟨s.w, s.eat, trash⟩))
  | .found rx trash =>
    let (bw, br) := meet never s.w.tail.tail rx.tail
    let (bw, eat) := if br = [] then eatOnes bw s.eat else (bw, s.eat)
    if peek bw = nul then some (.inr (.inl 0))
    else if peek bw ≠ 'Z' then
      if br = [] then
        let trash := trash - rx.tail.length - 1
        if trash < 0 then some (.inr (.inl 1)) else some (.inr (.inr ⟨s.w, 0, trash⟩))
      else if trash - 1 < 0 then some (.inr (.inl 1))
      else some (.inl ⟨s.w, rx.tail, 0, trash - 1⟩)
    else some (.inl ⟨bw, br, eat, trash⟩)

structure ChunkState where
  w : List Char
  r : List Char
  eat : Nat
  trash : Int

/-- `while (eat && *r) if (*r++ != 'Z') eat--`. -/
def skipEaten : Nat → List Char → List Char × Nat
  | 0, r => (r, 0)
  | eat, [] => ([], eat)
  | eat + 1, c :: r => if c = 'Z' then skipEaten (eat + 1) r else skipEaten eat r

def chunkTurn (s : ChunkState) : Option (ChunkState ⊕ (Nat ⊕ Left)) :=
  if s.r = [] then some (.inr (.inr ⟨s.w, s.eat, s.trash⟩))
  else
    let (r, eat) := skipEaten s.eat s.r
    match seek atStar (peek s.w.tail) r s.trash with
    | .spent => some (.inr (.inl 1))
    | .outside trash => some (.inr (.inr ⟨s.w, eat, trash⟩))
    | .found rx trash =>
      let r := rx.tail
      let (bw, br) := meet atStar s.w.tail.tail r
      let (bw, eat) := if peek br = 'Z' then eatOnes bw eat else (bw, eat)
      if peek bw = nul then some (.inr (.inl 0))
      else if peek bw ≠ 'Z' then
        if br = [] ∨ peek r = 'Z' then
          let trash := trash - (r.length - br.length)
          if trash < 0 then some (.inr (.inl 1))
          else if br = [] then some (.inr (.inr ⟨s.w, 0, trash⟩))
          else if trash - 1 < 0 then some (.inr (.inl 1))
          else some (.inl ⟨s.w, br, 0, trash - 1⟩)
        else if trash - 1 < 0 then some (.inr (.inl 1))
        else some (.inl ⟨s.w, r, 0, trash - 1⟩)
      else some (.inl ⟨bw, br, eat, trash⟩)

structure TailState where
  w : List Char
  back : List Char
  trash : Int

/-- A turn of the loop over what is left of the tail, down to `rx`; `back` is the text up to
and with `*r`. -/
def tailTurn (rx : Nat) (s : TailState) : Option (TailState ⊕ Nat) :=
  if s.back.length ≤ rx then some (.inr 1)
  else
    match seek never (peek s.w.tail) s.back s.trash with
    | .outside _ => none
    | .spent => some (.inr 1)
    | .found back trash =>
      if back.length ≤ rx then some (.inr 1)
      else
        let back := back.tail
        let room := back.length - rx
        let (bw, br) := meet never s.w.tail.tail (back.take room)
        if peek bw = nul then some (.inr 0)
        else if br = [] then some (.inr 1)
        else if peek bw ≠ 'Z' then if trash - 1 < 0 then some (.inr 1) else some (.inl ⟨s.w, back, trash - 1⟩)
        else some (.inl ⟨bw, back.drop (room - br.length), trash⟩)

/-- `if (*r++) while (*r)`: the text behind the star at `rz`, if there is one. -/
def chunkText (rz : List Char) : List Char := if peek rz = nul then [] else rz.tail.takeWhile (· ≠ nul)


/-- With a star in the restricted mask: `rest` is left of its head, `r` its text from the tail on. -/
def mmStars (rcm behind : List Char) (w rest r : List Char) (eat : Nat) (trash : Int) : Option Nat :=
  match meetTails w (r ++ nul :: behind) with
  | none => none
  | some (.inl result) => some result
  | some (.inr (w, rx)) =>
    if nul ∉ rx then none else
    match loop headTurn (rest.length + 1) ⟨w, rest, eat, trash⟩ with
    | none => none
    | some (.inl result) => some result
    | some (.inr left) =>
      let mem := rcm ++ nul :: behind
      let rz := rx.dropWhile fun c => !atEnd c
      match loop chunkTurn ((chunkText rz).length + 1) ⟨left.w, chunkText rz, left.eat, left.trash⟩ with
      | none => none
      | some (.inl result) => some result
      | some (.inr left) =>
        let back := (mem.take (mem.length - rz.length)).reverse
        loop (tailTurn (mem.length - rx.length)) (back.length + 1) ⟨left.w, back.drop left.eat, left.trash⟩

def mmexec (wcm : List Char) (wminlen : Nat) (rcm : List Char) (rminlen : Nat) (behind : List Char) : Option Nat :=
  let trash : Int := rminlen - wminlen
  if trash < 0 then some 1
  else
    match meetHeads wcm rcm with
    | .inl result => some result
    | .inr h =>
      match h.r.dropWhile fun c => !atEnd c with
      | [] =>
        match meetFlatTail h.w rcm.reverse with
        | .inl result => some result
        | .inr w => loop flatTurn (rcm.length + 1) ⟨w, h.r, trash⟩
      | _ :: r => mmStars rcm behind h.w (h.r.takeWhile fun c => !atEnd c) r h.eat trash

/-- The tail of the wider mask is compared past the terminator of the restricted one: this ends in the
tail, behind which there are no chunks, where the other one has a `?`. -/
def readsBehind (wcm : List Char) (wminlen : Nat) (rcm : List Char) (rminlen : Nat) : Bool :=
  if rminlen < wminlen then false
  else
    match meetHeads wcm rcm with
    | .inl _ => false
    | .inr h =>
      match h.r.dropWhile fun c => !atEnd c with
      | [] => false
      | _ :: r => (meet atStar h.w r).2 = [] ∧ peek (meet atStar h.w r).1 = 'A'

end Ircd.Match
