import Ircd.Net.InAddr
import Ircd.Text.Chattr

/-! The text forms of addresses in `ircd_string.c`: `ircd_ntoa_r` and `ipmask_parse`. -/

set_option autoImplicit false

namespace Ircd.Net
open Ircd.Text

def ipQuad (n : Nat) : List Char := Nat.toDigits 10 n

def hexDigit (n : Nat) : Char := "0123456789abcdef".toList.getD n nul

structure ZeroSearch where
  maxStart : Nat
  maxZeros : Nat
  currZeros : Nat
  ii : Nat

def ZeroSearch.step (s : ZeroSearch) (zero : Bool) : ZeroSearch :=
  if zero then { s with currZeros := s.currZeros + 1, ii := s.ii + 1 }
  else if s.currZeros > s.maxZeros then
    { maxStart := s.ii - s.currZeros, maxZeros := s.currZeros, currZeros := 0, ii := s.ii + 1 }
  else { s with ii := s.ii + 1 }

def longestZeros (zeros : List Bool) : Nat × Nat :=
  let s := zeros.foldl ZeroSearch.step ⟨1, 0, 0, 1⟩
  if s.currZeros > s.maxZeros then (s.ii - s.currZeros, s.currZeros) else (s.maxStart, s.maxZeros)

def hexWord (part : Nat) : List Char :=
  (if part ≥ 0x1000 then [hexDigit (part >>> 12)] else []) ++
    (if part ≥ 0x100 then [hexDigit ((part >>> 8) &&& 15)] else []) ++
    (if part ≥ 0x10 then [hexDigit ((part >>> 4) &&& 15)] else []) ++ [hexDigit (part &&& 15)]

/-- The loop that prints an IPv6 address. Eight rounds are enough, as each moves `ii` on. -/
def printWords (a : InAddr) (maxStart maxZeros : Nat) : Nat → Nat → List Char
  | 0, _ => []
  | rounds + 1, ii =>
    if ii < 8 then
      if maxZeros > 0 ∧ ii = maxStart then ':' :: printWords a maxStart maxZeros rounds (ii + (maxZeros - 1) + 1)
      else hexWord (a.word ii).toNat ++ (if ii < 7 then [':'] else []) ++ printWords a maxStart maxZeros rounds (ii + 1)
    else []

def ircdNtoaR (a : InAddr) : List Char :=
  if a.isIpv4 then
    ipQuad ((a.word 6).toNat / 256) ++ '.' :: ipQuad ((a.word 6).toNat % 256) ++ '.' ::
      ipQuad ((a.word 7).toNat / 256) ++ '.' :: ipQuad ((a.word 7).toNat % 256)
  else
    let found := longestZeros (a.words.tail.map fun w => decide (w = 0))
    printWords a found.1 found.2 8 0

def digitValue (c : Char) : Nat := c.toNat - '0'.toNat

def readBits : Nat → List Char → Nat × List Char
  | bits, [] => (bits, [])
  | bits, c :: rest => if isDigit c then readBits ((bits * 10 + digitValue c) % 2 ^ 32) rest else (bits, c :: rest)

/-- What `ircd_aton_ip4` gives back: the address, the bits and the text it has not used. -/
structure Ip4 where
  ip : Nat
  bits : Nat
  rest : List Char
  deriving DecidableEq, Repr

def atonIp4Loop (pbits : Bool) : List Char → Nat → Nat → Nat → Option Ip4
  | [], dots, part, ip => if dots < 3 then none else some ⟨ip ||| part <<< (24 - 8 * dots), 32, []⟩
  | c :: rest, dots, part, ip =>
    if c = '.' then
      if dots + 1 > 3 ∨ peek rest = '.' then none
      else if peek rest = '*' then
        if rest.dropWhile (fun d => d = '*' || d = '.') ≠ [] then none
        else some ⟨ip ||| part <<< (32 - 8 * (dots + 1)), (dots + 1) * 8, []⟩
      else atonIp4Loop pbits rest (dots + 1) 0 (ip ||| part <<< (32 - 8 * (dots + 1)))
    else if c = '/' then
      if !pbits || !isDigit (peek rest) then none
      else
        let (bits, rest) := readBits 0 rest
        if bits > 32 then none else some ⟨ip ||| part <<< (24 - 8 * dots), bits, rest⟩
    else if isDigit c then
      if part * 10 + digitValue c > 255 then none else atonIp4Loop pbits rest dots (part * 10 + digitValue c) ip
    else none

/-- `ircd_aton_ip4`; `none` where it returns 0. -/
def ircdAtonIp4 (pbits : Bool) (input : List Char) : Option Ip4 :=
  if peek input = '.' then none else atonIp4Loop pbits input 0 0 0

def hexValue (c : Char) : Option Nat :=
  if '0' ≤ c ∧ c ≤ '9' then some (c.toNat - '0'.toNat)
  else if 'A' ≤ c ∧ c ≤ 'F' then some (c.toNat - 'A'.toNat + 10)
  else if 'a' ≤ c ∧ c ≤ 'f' then some (c.toNat - 'a'.toNat + 10)
  else none

def InAddr.set (a : InAddr) (i part : Nat) : InAddr :=
  ⟨a.words.set i (UInt16.ofNat part), by rw [List.length_set, a.length_eq]⟩

structure Ip6 where
  part : Nat
  ii : Nat
  colon : Nat
  partStart : List Char
  ip : InAddr

def Ip6.store (s : Ip6) : Ip6 := { s with ip := s.ip.set s.ii s.part, ii := s.ii + 1, part := 0 }

/-- The words after `::` move up and the middle is filled with zeros. -/
def Ip6.spread (s : Ip6) : InAddr :=
  if s.colon < 8 then
    let moved := (List.range (s.ii - s.colon)).foldl
      (fun ip jj => ip.set (7 - jj) (ip.word (s.ii - jj - 1)).toNat) s.ip
    (List.range (8 - s.ii)).foldl (fun ip jj => ip.set (s.colon + jj) 0) moved
  else s.ip

/-- What `ipmask_parse` gives back: the address, the bits it wrote and the unused text. -/
structure IpMask where
  ip : InAddr
  pbits : Option Nat
  rest : List Char
  deriving DecidableEq

def writeBits (pbits : Bool) (bits : Nat) : Option Nat := if pbits then some bits else none

/-- The loop over an IPv6 text, up to its label `finish`. -/
def ip6Loop (pbits : Bool) : List Char → Ip6 → Option IpMask
  | [], s =>
    if s.ii < 8 then
      if s.colon = 8 ∧ s.ii + 1 < 8 then none else some ⟨s.store.spread, writeBits pbits 128, []⟩
    else some ⟨s.spread, none, []⟩
  | ':' :: ':' :: after, s =>
    if s.ii < 8 then
      if s.colon < 8 ∨ s.ii + 1 = 8 then none
      else ip6Loop pbits after { s.store with partStart := ':' :: after, colon := s.ii + 1 }
    else none
  | c :: rest, s =>
    if s.ii < 8 then
      match hexValue c with
      | some chval =>
        if s.part <<< 4 ||| chval > 0xffff then none else ip6Loop pbits rest { s with part := s.part <<< 4 ||| chval }
      | none =>
        if c = ':' then
          if peek rest = '.' then none else ip6Loop pbits rest { s.store with partStart := rest }
        else if c = '.' then
          match ircdAtonIp4 pbits s.partStart with
          | none => none
          | some v4 =>
            if s.ii > 6 then none
            else
              let high := { s with part := v4.ip >>> 16 }.store
              let low := { high with part := v4.ip &&& 65535 }.store
              some ⟨low.spread, writeBits pbits (v4.bits + 96), v4.rest⟩
        else if c = '/' then
          if !pbits || !isDigit (peek rest) then none
          else
            let (bits, rest) := readBits 0 rest
            if bits > 128 then none else some ⟨s.store.spread, some bits, rest⟩
        else if c = '*' then
          if rest.dropWhile (fun d => d = '*' || d = ':') ≠ [] ∨ s.colon < 8 then none
          else
            let s := if s.part ≠ 0 then s.store else s
            some ⟨s.ip, writeBits pbits (s.ii * 16), []⟩
        else none
    else none

theorem zeroAddr_length : ([0, 0, 0, 0, 0, 0, 0, 0] : List UInt16).length = 8 := rfl

def zeroAddr : InAddr := ⟨[0, 0, 0, 0, 0, 0, 0, 0], zeroAddr_length⟩

def colonFirst (input : List Char) : Bool :=
  match input.idxOf? ':', input.idxOf? '.' with
  | some colon, some dot => dot > colon
  | some _, none => true
  | none, _ => false

def parseIp6 (pbits : Bool) (input : List Char) : Option IpMask :=
  match input with
  | ':' :: rest =>
    match rest with
    | ':' :: after => if peek after = ':' then none else ip6Loop pbits after ⟨0, 0, 0, after, zeroAddr⟩
    | _ => none
  | _ => ip6Loop pbits input ⟨0, 0, 8, [], zeroAddr⟩

def parseIp4 (pbits : Bool) (input : List Char) : Option IpMask :=
  match ircdAtonIp4 pbits input with
  | none => none
  | some v4 =>
    some ⟨((zeroAddr.set 5 65535).set 6 (v4.ip >>> 16)).set 7 (v4.ip &&& 65535), writeBits pbits (v4.bits + 96), v4.rest⟩

/-- `ipmask_parse`; `none` where it returns 0. -/
def ipmaskParse (pbits : Bool) (input : List Char) : Option IpMask :=
  if colonFirst input then parseIp6 pbits input
  else if '.' ∈ input ∨ '/' ∈ input then parseIp4 pbits input
  else if peek input = '*' then
    if input.tail.dropWhile (· = '*') ≠ [] then none else some ⟨zeroAddr, writeBits pbits 0, []⟩
  else none

/-- The number of characters `ipmask_parse` returns. -/
def IpMask.used (mask : IpMask) (input : List Char) : Nat := input.length - mask.rest.length

end Ircd.Net
