import Ircd.Ddb.Answers

/-! One table of a link.

What is on its way leads from the last id of the leaf to another one, and no request asks for less than that. A
link starts with two requests for a table, of which one at most is still on its way when a faucet is open: so
none is left that the hub could answer behind its order to drop the table.
-/

set_option autoImplicit false

namespace Ircd.Ddb
open Ircd.Library Ircd.Match Ircd.Text

def stays (r : Register) : Bool := !packs r

def shipmentOf : Reply → Shipment Register
  | .register line => ((readMessage true line).bind Message.register).elim .notice fun read => .entry read.2
  | .drop => .anew
  | _ => .notice

def Reply.weight : Reply → Nat
  | .burst _ => 1
  | .drop => 2
  | _ => 0

structure View where
  log : List Register
  last : Nat
  taken : List Register
  onWay : List Reply
  asked : List (List Char)
  faucet : Bool

def View.outstanding (v : View) : Nat := v.asked.length + (v.onWay.map Reply.weight).sum + v.faucet.toNat

structure View.Follows (v : View) : Prop where
  increasing : v.log.Pairwise (·.id < ·.id)
  bounded : ∀ r ∈ v.log, 0 < r.id ∧ r.id < 2 ^ 31
  stands : v.last = 0 ∨ ∃ r ∈ v.log, r.id = v.last
  mirrors : Mirrors Register.id stays v.log (v.last, v.taken)
  ships : ∃ final, Ships Register.id stays v.log v.last (v.onWay.map shipmentOf) final ∧
    (∀ parv4 ∈ v.asked, ∃ x, parv4 = decimal x ∧ x ≤ final ∧ x < 2 ^ 31) ∧
    (v.faucet = true → ∀ r ∈ v.log, stays r = true → r.id ≤ final)
  outstanding : v.outstanding ≤ 2

section
variable {v : View}

theorem View.Follows.small (follows : v.Follows) : v.last < 2 ^ 31 := by
  rcases follows.stands with zero | ⟨r, mem, same⟩
  · omega
  · exact same ▸ (follows.bounded r mem).2

theorem steady_of_light {replies : List Reply} (light : (replies.map Reply.weight).sum ≤ 1) :
    Shipment.Steady (replies.map shipmentOf) := by
  induction replies with
  | nil => exact List.not_mem_nil
  | cons reply replies ih =>
    rw [List.map_cons, List.sum_cons] at light
    rw [List.map_cons]
    intro mem
    rcases List.mem_cons.mp mem with same | mem
    · cases reply with
      | register line =>
        rw [shipmentOf] at same
        cases read : (readMessage true line).bind Message.register with
        | none =>
          rw [read] at same
          cases same
        | some given =>
          rw [read] at same
          cases same
      | burst id => cases same
      | drop =>
        rw [Reply.weight] at light
        omega
      | hash parameter => cases same
    · exact ih (by omega) mem

theorem View.Follows.linked (follows : v.Follows) {asked : List (List Char)} (few : asked.length ≤ 2)
    (all : ∀ parv4 ∈ asked, parv4 = decimal v.last) :
    View.Follows { v with onWay := [], asked, faucet := false } where
  increasing := follows.increasing
  bounded := follows.bounded
  stands := follows.stands
  mirrors := follows.mirrors
  ships := ⟨v.last, .done, fun parv4 mem => ⟨v.last, all parv4 mem, Nat.le_refl _, follows.small⟩,
    fun opened => absurd opened Bool.false_ne_true⟩
  outstanding := by simpa [View.outstanding] using few

theorem View.Follows.registered (follows : v.Follows) {r : Register} (positive : 0 < r.id) (small : r.id < 2 ^ 31)
    (highest : ∀ a ∈ v.log, a.id < r.id) {line : List Char} (reads : shipmentOf (.register line) = .entry r) :
    View.Follows { v with
      log := v.log ++ [r]
      onWay := if v.faucet = true then v.onWay ++ [.register line] else v.onWay } := by
  obtain ⟨final, ships, asked, opened⟩ := follows.ships
  have logged := ships.logged highest
  have behind : v.last < r.id := by
    rcases follows.stands with zero | ⟨a, mem, same⟩
    · omega
    · exact same ▸ highest a mem
  refine ⟨?_, ?_, ?_, ?_, ?_, ?_⟩
  · refine List.pairwise_append.mpr ⟨follows.increasing, List.pairwise_singleton _ _, fun a old b new => ?_⟩
    rw [List.mem_singleton.mp new]
    exact highest a old
  · intro a mem
    rcases List.mem_append.mp mem with old | new
    · exact follows.bounded a old
    · rw [List.mem_singleton.mp new]
      exact ⟨positive, small⟩
  · exact follows.stands.imp_right fun ⟨a, mem, same⟩ => ⟨a, List.mem_append_left _ mem, same⟩
  · exact follows.mirrors.logged behind
  · dsimp only
    split_ifs with faucet
    · refine ⟨max final r.id, ?_, ?_, ?_⟩
      · rw [List.map_append, List.map_singleton, reads]
        refine logged.append (.entry (List.mem_append_right _ (List.mem_singleton_self r)) ?_ .done)
        intro b mem kept above
        rcases List.mem_append.mp mem with old | new
        · have := opened faucet b old kept
          omega
        · rw [List.mem_singleton.mp new]
      · intro parv4 mem
        obtain ⟨x, text, low, int⟩ := asked parv4 mem
        exact ⟨x, text, low.trans (le_max_left _ _), int⟩
      · intro _ b mem kept
        rcases List.mem_append.mp mem with old | new
        · exact (opened faucet b old kept).trans (le_max_left _ _)
        · rw [List.mem_singleton.mp new]
          exact le_max_right _ _
    · exact ⟨final, logged, asked, fun there => absurd there faucet⟩
  · have few := follows.outstanding
    unfold View.outstanding at few ⊢
    dsimp only
    split_ifs
    · simpa [Reply.weight] using few
    · exact few

theorem decimal_injective {m n : Nat} (same : decimal m = decimal n) : m = n := by
  have value := readNumber_toDigits m
  rw [← decimal, same, decimal, readNumber_toDigits] at value
  exact value.symm

theorem View.Follows.current (follows : v.Follows) {x : Nat} {asked : List (List Char)}
    (first : v.asked = decimal x :: asked) (all : ∀ r ∈ v.log, r.id ≤ x) :
    View.Follows { v with asked, faucet := true } := by
  obtain ⟨final, ships, requests, -⟩ := follows.ships
  rw [first, List.forall_mem_cons] at requests
  obtain ⟨⟨y, same, low, -⟩, requests⟩ := requests
  obtain rfl := decimal_injective same
  refine ⟨follows.increasing, follows.bounded, follows.stands, follows.mirrors, ⟨final, ships, requests, ?_⟩, ?_⟩
  · exact fun _ r mem _ => (all r mem).trans low
  · have few := follows.outstanding
    have one := Bool.toNat_le v.faucet
    rw [View.outstanding, first, List.length_cons] at few
    rw [View.outstanding, Bool.toNat_true]
    dsimp only
    omega

theorem View.Follows.corrupt (follows : v.Follows) {parv4 : List Char} {asked : List (List Char)}
    (first : v.asked = parv4 :: asked) (opened : v.faucet = true) :
    View.Follows { v with asked, onWay := v.onWay ++ [.drop], faucet := false } := by
  obtain ⟨final, ships, -, -⟩ := follows.ships
  have few := follows.outstanding
  rw [View.outstanding, first, opened, List.length_cons, Bool.toNat_true] at few
  have none_asked : asked = [] := List.eq_nil_of_length_eq_zero (by omega)
  subst none_asked
  refine ⟨follows.increasing, follows.bounded, follows.stands, follows.mirrors, ⟨0, ?_, ?_, ?_⟩, ?_⟩
  · rw [List.map_append]
    exact ships.append (.anew .done)
  · exact fun _ mem => absurd mem List.not_mem_nil
  · exact fun there => absurd there Bool.false_ne_true
  · rw [View.outstanding, List.map_append, List.sum_append]
    simp only [List.map_cons, List.map_nil, List.sum_cons, List.sum_nil, Reply.weight, List.length_nil,
      Bool.toNat_false]
    omega

/-- A part of the log goes behind what is on its way, and with the last part the faucet is opened. -/
theorem View.Follows.answered (follows : v.Follows) {x : Nat} {asked : List (List Char)}
    (first : v.asked = decimal x :: asked) (closed : v.faucet = false)
    {front part back : List Register} (whole : v.log.filter stays = front ++ part ++ back)
    (low : ∀ r ∈ front, r.id ≤ x) {replies tail : List Reply} (reads : replies.map shipmentOf = part.map .entry)
    (weightless : ∀ reply ∈ replies, reply.weight = 0) (quiet : ∀ reply ∈ tail, shipmentOf reply = .notice)
    {faucet : Bool} (light : (tail.map Reply.weight).sum + faucet.toNat ≤ 1) (ends : faucet = true → back = []) :
    View.Follows { v with asked, onWay := v.onWay ++ (replies ++ tail), faucet } := by
  obtain ⟨final, ships, requests, -⟩ := follows.ships
  rw [first, List.forall_mem_cons] at requests
  obtain ⟨⟨y, same, there, -⟩, requests⟩ := requests
  obtain rfl := decimal_injective same
  have sent : Ships Register.id stays v.log final (part.map .entry) (placeAfter Register.id final part) :=
    Ships.part whole follows.increasing fun r mem => (low r mem).trans there
  obtain ⟨higher, taken⟩ := @le_placeAfter _ Register.id final part
  refine ⟨follows.increasing, follows.bounded, follows.stands, follows.mirrors,
    ⟨placeAfter Register.id final part, ?_, ?_, ?_⟩, ?_⟩
  · rw [List.map_append, List.map_append, reads]
    refine ships.append (sent.append (Ships.notices fun shipment mem => ?_))
    obtain ⟨reply, inside, rfl⟩ := List.mem_map.mp mem
    exact quiet reply inside
  · intro parv4 mem
    obtain ⟨z, text, low, int⟩ := requests parv4 mem
    exact ⟨z, text, low.trans higher, int⟩
  · intro opened r mem kept
    have inside : r ∈ v.log.filter stays := List.mem_filter.mpr ⟨mem, kept⟩
    rw [whole, ends opened, List.append_nil] at inside
    rcases List.mem_append.mp inside with before | here
    · exact ((low r before).trans there).trans higher
    · exact taken r here
  · have few := follows.outstanding
    have nothing : (replies.map Reply.weight).sum = 0 := List.sum_eq_zero_iff_forall_eq_nat.mpr fun n mem => by
      obtain ⟨reply, inside, rfl⟩ := List.mem_map.mp mem
      exact weightless reply inside
    rw [View.outstanding, first, closed, List.length_cons, Bool.toNat_false] at few
    rw [View.outstanding, List.map_append, List.map_append, List.sum_append, List.sum_append, nothing]
    dsimp only
    omega

theorem View.Follows.delivered (follows : v.Follows) {reply : Reply} {rest : List Reply}
    (first : v.onWay = reply :: rest) : View.Follows { v with
      last := (follow Register.id (v.last, v.taken) (shipmentOf reply)).1
      taken := (follow Register.id (v.last, v.taken) (shipmentOf reply)).2
      onWay := rest
      asked := v.asked ++ if reply.weight = 0 then [] else
        [decimal (follow Register.id (v.last, v.taken) (shipmentOf reply)).1] } := by
  obtain ⟨final, ships, requests, opened⟩ := follows.ships
  rw [first, List.map_cons] at ships
  obtain ⟨behind, mirrors⟩ := ships.taken follows.increasing (fun r mem => (follows.bounded r mem).1)
    follows.mirrors
  have stands := ships.stands v.taken follows.stands
  have few := follows.outstanding
  rw [View.outstanding, first, List.map_cons, List.sum_cons] at few
  refine ⟨follows.increasing, follows.bounded, stands, mirrors, ⟨final, behind, ?_, opened⟩, ?_⟩
  · intro parv4 mem
    rcases List.mem_append.mp mem with old | new
    · exact requests parv4 old
    · split_ifs at new with weightless
      · cases new
      · rw [List.mem_singleton] at new
        refine ⟨_, new, behind.le ?_, ?_⟩
        · -- This message and an order to drop the table would weigh too much together.
          exact steady_of_light (by omega)
        · rcases stands with zero | ⟨r, mem, same⟩
          · omega
          · exact same ▸ (follows.bounded r mem).2
  · rw [View.outstanding]
    dsimp only
    split_ifs with weightless
    · rw [List.append_nil]
      omega
    · rw [List.length_append, List.length_singleton]
      omega

end

end Ircd.Ddb
