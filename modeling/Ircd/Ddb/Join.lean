import Ircd.Ddb.Burst
import Ircd.Ddb.HashCheck

/-! The `J` request of `ms_db`: a server asks for the registers of a table above an id.

The faucet of a server and a table is a bit of `ddb_open`: new registers go to the server
when it is set. `ddb_db_read` returns `-1` when nothing is found, and then the request is
neither answered nor is the bit set.
-/

set_option autoImplicit false

namespace Ircd.Ddb
open Ircd.Library Ircd.Match Ircd.Text

inductive Reply where
  | register (line : List Char)
  | burst (id : Nat)
  | drop
  | hash (parameter : List Char)

def ddbMask (table : Char) : UInt32 := 1 <<< UInt32.ofNat (table.toNat - 'a'.toNat)

def requestedId (parv4 : List Char) : Nat := ((atol parv4).bmod (2 ^ 32) % 2 ^ 64).toNat

/-- The end of the `J` case of `ms_db`: the faucets of the server that asks, and what was sent
to it, after `ddb_db_read` sent some rows and returned. -/
def afterRead (isHub : Bool) (ddbOpen : UInt32) (idTable : UInt64) (hash : HashPair) (ddbBuf : List Char)
    (table : Char) : List Row × Int → UInt32 × List Reply
  | (rows, endBurst) =>
    let sent := rows.map fun row => Reply.register (row.message table)
    if endBurst = 1 then
      -- A hub does not get the hash: it could wipe the whole network.
      (ddbOpen ||| ddbMask table, if isHub then sent else sent ++ [.hash (hashParameter ddbBuf hash)])
    else if endBurst = 0 then (ddbOpen, sent ++ [.burst (idTable.toNat % 2 ^ 32)])
    else (ddbOpen, sent)

def joinRequest (isHub : Bool) (ddbOpen : UInt32) (idTable : UInt64) (hash : HashPair) (ddbBuf file : List Char)
    (table : Char) (parv4 : List Char) : Option (UInt32 × List Reply) :=
  let id := requestedId parv4
  if id ≥ idTable.toNat then some (ddbOpen ||| ddbMask table, [])
  else if ddbOpen &&& ddbMask table ≠ 0 then some (ddbOpen &&& ~~~ddbMask table, [.drop])
  else (ddbDbRead file true ((id + 1) % 2 ^ 64) 1000).map (afterRead isHub ddbOpen idTable hash ddbBuf table)

/-- The server that asked gets the new registers, or it knows that it has to ask again. -/
def Served (table : Char) (result : Option (UInt32 × List Reply)) : Prop :=
  ∃ ddbOpen replies, result = some (ddbOpen, replies) ∧
    (ddbOpen &&& ddbMask table ≠ 0 ∨ (∃ id, Reply.burst id ∈ replies) ∨ Reply.drop ∈ replies)

theorem handOut_returns (burst : Bool) (cont : Int) (r : Register) (later : List Register) :
    (handOut burst cont r later).2 = 0 ∨ (handOut burst cont r later).2 = 1 := by
  induction later generalizing r cont with
  | nil =>
    rw [handOut, apply_ite Prod.snd]
    exact ite_eq_or_eq ..
  | cons next later ih =>
    rw [handOut]
    generalize (if (burst && (handed r).isSome) = true then cont - 1 else cont) = left
    split_ifs
    · exact .inl rfl
    · exact ih left next
    · exact .inr rfl

theorem requestedId_cases (parv4 : List Char) :
    requestedId parv4 < 2 ^ 31 ∨ 2 ^ 63 ≤ requestedId parv4 ∧ requestedId parv4 < 2 ^ 64 := by
  have low : -2147483648 ≤ (atol parv4).bmod (2 ^ 32) := Int.le_bmod (by decide)
  have high : (atol parv4).bmod (2 ^ 32) < 2147483648 := Int.bmod_lt (by decide)
  unfold requestedId
  omega

theorem ddbMask_ne_zero (table : Char) : ddbMask table ≠ 0 := by
  intro zero
  have value := congrArg UInt32.toNat zero
  have inside : (UInt32.ofNat (table.toNat - 'a'.toNat)).toNat % 32 < 32 := Nat.mod_lt _ (by decide)
  rw [ddbMask, UInt32.toNat_shiftLeft, UInt32.toNat_one, Nat.one_shiftLeft,
    Nat.mod_eq_of_lt (Nat.pow_lt_pow_right (by decide) inside), UInt32.toNat_zero] at value
  exact absurd value (Nat.two_pow_pos _).ne'

theorem or_and_mask (ddbOpen mask : UInt32) : (ddbOpen ||| mask) &&& mask = mask := by
  apply UInt32.toBitVec_inj.mp
  apply BitVec.eq_of_getLsbD_eq
  intro i _
  rw [UInt32.toBitVec_and, UInt32.toBitVec_or, BitVec.getLsbD_and, BitVec.getLsbD_or]
  cases ddbOpen.toBitVec.getLsbD i <;> cases mask.toBitVec.getLsbD i <;> rfl

theorem served_afterRead {isHub : Bool} {ddbOpen : UInt32} {idTable : UInt64} {hash : HashPair}
    {ddbBuf : List Char} {table : Char} (closed : ddbOpen &&& ddbMask table = 0) (rows : List Row) (endBurst : Int) :
    Served table (some (afterRead isHub ddbOpen idTable hash ddbBuf table (rows, endBurst))) ↔
      endBurst = 0 ∨ endBurst = 1 := by
  simp only [afterRead]
  by_cases all : endBurst = 1
  · rw [if_pos all]
    refine ⟨fun _ => .inr all, fun _ => ⟨_, _, rfl, .inl ?_⟩⟩
    rw [or_and_mask]
    exact ddbMask_ne_zero table
  · rw [if_neg all]
    by_cases more : endBurst = 0
    · rw [if_pos more]
      exact ⟨fun _ => .inl more, fun _ => ⟨_, _, rfl, .inr (.inl ⟨_, List.mem_append_right _ List.mem_cons_self⟩)⟩⟩
    · rw [if_neg more]
      refine ⟨?_, by rintro (zero | one) <;> contradiction⟩
      rintro ⟨faucets, replies, same, served⟩
      obtain ⟨rfl, rfl⟩ := Prod.mk.inj (Option.some.inj same)
      rcases served with set | ⟨_, mem⟩ | mem
      · exact absurd closed set
      · simp at mem
      · simp at mem

/-- A request is served exactly if it asks for nothing yet, or the faucet was open, or the
id is not negative and the file has a register above it whose line can be read. -/
theorem served_iff (isHub : Bool) (ddbOpen : UInt32) (idTable : UInt64) (hash : HashPair) (ddbBuf : List Char)
    (f : TableFile) (table : Char) (parv4 : List Char) :
    Served table (joinRequest isHub ddbOpen idTable hash ddbBuf f.text table parv4) ↔
      idTable.toNat ≤ requestedId parv4 ∨ ddbOpen &&& ddbMask table ≠ 0 ∨
        requestedId parv4 < 2 ^ 31 ∧ ∃ r later, f.wanted (requestedId parv4 + 1) = r :: later ∧
          (lineText r).length ≤ 501 := by
  unfold joinRequest
  simp only
  by_cases nothing_new : idTable.toNat ≤ requestedId parv4
  · rw [if_pos nothing_new]
    refine ⟨fun _ => .inl nothing_new, fun _ => ⟨_, _, rfl, .inl ?_⟩⟩
    rw [or_and_mask]
    exact ddbMask_ne_zero table
  · rw [if_neg nothing_new]
    by_cases open_faucet : ddbOpen &&& ddbMask table ≠ 0
    · rw [if_pos open_faucet]
      exact ⟨fun _ => .inr (.inl open_faucet), fun _ => ⟨_, _, rfl, .inr (.inr List.mem_cons_self)⟩⟩
    · rw [if_neg open_faucet]
      have closed : ddbOpen &&& ddbMask table = 0 := not_not.mp open_faucet
      have id_table := idTable.toNat_lt
      have next : (requestedId parv4 + 1) % 2 ^ 64 = requestedId parv4 + 1 := Nat.mod_eq_of_lt (by omega)
      simp only [nothing_new, open_faucet, false_or, next]
      by_cases small : requestedId parv4 < 2 ^ 31
      · cases some_wanted : f.wanted (requestedId parv4 + 1) with
        | nil =>
          have read := ddbDbRead_nothing 1000 some_wanted
          simp only [Nat.cast_ofNat] at read
          rw [read, Option.map_some, served_afterRead closed]
          simp
        | cons r later =>
          have read := ddbDbRead_wanted 1000 some_wanted (by omega)
          simp only [Nat.cast_ofNat] at read
          rw [read]
          by_cases short : (lineText r).length ≤ 501
          · rw [if_pos short, Option.map_some, served_afterRead closed]
            exact ⟨fun _ => ⟨small, r, later, rfl, short⟩, fun _ => handOut_returns ..⟩
          · rw [if_neg short, Option.map_some, served_afterRead closed]
            refine ⟨by simp, ?_⟩
            rintro ⟨-, r', later', same, short'⟩
            obtain ⟨rfl, -⟩ := List.cons.inj same
            exact absurd short' short
      · -- A negative `int` is above every `long`.
        have large := (requestedId_cases parv4).resolve_left small
        have read : ddbDbRead f.text true (requestedId parv4 + 1) 1000 = some ([], -1) := by
          rw [ddbDbRead, ddbSeek_large f _ (by omega)]
        rw [read, Option.map_some, served_afterRead closed]
        refine ⟨by simp, ?_⟩
        rintro ⟨small', -⟩
        exact absurd small' small

/-- The id of the table is above the last register of the file, as `ddb_compact` leaves it:
the server is neither sent anything nor is its faucet opened. -/
theorem not_served :
    ¬ Served 'b' (joinRequest false 0 9 (0, 0) [] (deletionsFile 7 (by decide)).text 'b' ['7']) := by
  have result : joinRequest false 0 9 (0, 0) [] (deletionsFile 7 (by decide)).text 'b' ['7'] = some (0, []) := by
    have closed : (0 : UInt32) &&& ddbMask 'b' = 0 := by decide
    have read : ddbDbRead (deletionsFile 7 (by decide)).text true ((7 + 1) % 2 ^ 64) 1000 = some ([], -1) := by
      decide +kernel
    have id : requestedId ['7'] = 7 := by decide
    simp only [joinRequest, id]
    rw [if_neg (by decide), if_neg (by simp [closed]), read]
    rfl
  rintro ⟨faucets, replies, same, served⟩
  rw [result] at same
  obtain ⟨rfl, rfl⟩ := Prod.mk.inj (Option.some.inj same)
  rcases served with set | ⟨_, mem⟩ | mem
  · exact set (by decide)
  · cases mem
  · cases mem

end Ircd.Ddb
