import Ircd.Ddb.TableViews

/-! What a leaf has of the tables of its hub, in every run of the two. -/

set_option autoImplicit false

namespace Ircd.Ddb
open Ircd.Library Ircd.Match Ircd.Text

theorem mask_shift {table : Char} (isTable : IsTable table) : ∃ k : Fin 26, table.toNat = 97 + k ∧
    ddbMask table = 1 <<< UInt32.ofNat k := by
  have low : 97 ≤ table.toNat := UInt32.le_iff_toNat_le.mp isTable.1
  have high : table.toNat ≤ 122 := UInt32.le_iff_toNat_le.mp isTable.2
  have base : 'a'.toNat = 97 := rfl
  refine ⟨⟨table.toNat - 97, by omega⟩, by dsimp only; omega, ?_⟩
  rw [ddbMask, base]

theorem shifts_apart : ∀ k l : Fin 26, k ≠ l → (1 : UInt32) <<< UInt32.ofNat k &&& 1 <<< UInt32.ofNat l = 0 := by
  decide +kernel

theorem masks_apart {table other : Char} (isTable : IsTable table) (isOther : IsTable other)
    (apart : table ≠ other) : ddbMask table &&& ddbMask other = 0 := by
  obtain ⟨k, code, mask⟩ := mask_shift isTable
  obtain ⟨l, code', mask'⟩ := mask_shift isOther
  rw [mask, mask']
  refine shifts_apart k l fun same => apart (Char.ext (UInt32.toNat_inj.mp ?_))
  change table.toNat = other.toNat
  rw [code, code', same]

section
variable {ddbOpen mask other : UInt32}

theorem opened_and (apart : mask &&& other = 0) : (ddbOpen ||| other) &&& mask = ddbOpen &&& mask := by
  have bits := congrArg UInt32.toBitVec apart
  apply UInt32.toBitVec_inj.mp
  apply BitVec.eq_of_getLsbD_eq
  intro i _
  have bit := congrArg (BitVec.getLsbD · i) bits
  simp only [UInt32.toBitVec_and, BitVec.getLsbD_and, UInt32.toBitVec_ofNat, BitVec.getLsbD_zero] at bit
  rw [UInt32.toBitVec_and, UInt32.toBitVec_and, UInt32.toBitVec_or, BitVec.getLsbD_and, BitVec.getLsbD_and,
    BitVec.getLsbD_or]
  revert bit
  cases ddbOpen.toBitVec.getLsbD i <;> cases mask.toBitVec.getLsbD i <;> cases other.toBitVec.getLsbD i <;> simp

theorem closed_and (apart : mask &&& other = 0) : (ddbOpen &&& ~~~other) &&& mask = ddbOpen &&& mask := by
  have bits := congrArg UInt32.toBitVec apart
  apply UInt32.toBitVec_inj.mp
  apply BitVec.eq_of_getLsbD_eq
  intro i inside
  have bit := congrArg (BitVec.getLsbD · i) bits
  simp only [UInt32.toBitVec_and, BitVec.getLsbD_and, UInt32.toBitVec_ofNat, BitVec.getLsbD_zero] at bit
  rw [UInt32.toBitVec_and, UInt32.toBitVec_and, UInt32.toBitVec_and, UInt32.toBitVec_not, BitVec.getLsbD_and,
    BitVec.getLsbD_and, BitVec.getLsbD_and, BitVec.getLsbD_not]
  revert bit
  cases ddbOpen.toBitVec.getLsbD i <;> cases mask.toBitVec.getLsbD i <;> cases other.toBitVec.getLsbD i <;>
    simp [inside]

theorem closed_mask : (ddbOpen &&& ~~~mask) &&& mask = 0 := by
  apply UInt32.toBitVec_inj.mp
  apply BitVec.eq_of_getLsbD_eq
  intro i inside
  rw [UInt32.toBitVec_and, UInt32.toBitVec_and, UInt32.toBitVec_not, BitVec.getLsbD_and, BitVec.getLsbD_and,
    BitVec.getLsbD_not]
  cases ddbOpen.toBitVec.getLsbD i <;> cases mask.toBitVec.getLsbD i <;> simp

end

section
variable {crc32hash : Nat → Nat} {me : CString} {names : Names} {s : Server} {m : Message} {table : Char}
  {r : Register}

theorem msDb_id (taken : s.taken m = some (table, r)) (other : Char) :
    (s.msDb crc32hash me m).tables.idTable other = if other = table then r.id else s.tables.idTable other := by
  rw [msDb_some taken]
  by_cases own : other = table
  · subst own
    rw [if_pos rfl]
    split_ifs
    · exact Function.update_self ..
    · exact newRegister_id _ r
  · rw [if_neg own]
    split_ifs
    · exact Function.update_of_ne own _ _
    · exact (newRegister_other own r).2

def Replica.place (s : Replica) (table : Char) : Nat × List Register :=
  (s.server.tables.idTable table, s.log table)

theorem taken_eq (given : m.register = some (table, r)) (fromHub : m.fromHub = true) :
    s.taken m = if s.tables.idTable table < r.id then some (table, r) else none := by
  rw [Server.taken, given, Option.filter_some]
  simp only [fromHub, Bool.true_and, decide_eq_true_eq]

theorem take_place (leaf : Replica) (given : m.register = some (table, r)) (fromHub : m.fromHub = true)
    (other : Char) : (leaf.take crc32hash me m).place other =
      if table = other then follow Register.id (leaf.place other) (.entry r) else leaf.place other := by
  have taken := @taken_eq leaf.server _ _ _ given fromHub
  by_cases higher : leaf.server.tables.idTable table < r.id
  · rw [if_pos higher] at taken
    unfold Replica.take Replica.place
    rw [taken]
    dsimp only
    rw [msDb_id taken]
    by_cases own : table = other
    · subst own
      rw [if_pos rfl, if_pos rfl, Function.update_self, follow, if_pos higher]
    · rw [if_neg (Ne.symm own), if_neg own, Function.update_of_ne (Ne.symm own)]
  · rw [if_neg higher] at taken
    have same : leaf.take crc32hash me m = leaf := by rw [Replica.take, taken]
    rw [same]
    by_cases own : table = other
    · subst own
      rw [if_pos rfl, Replica.place, follow, if_neg higher]
    · rw [if_neg own]

theorem drop_place (leaf : Replica) (table other : Char) :
    (leaf.drop table).place other = if table = other then (0, []) else leaf.place other := by
  unfold Replica.drop Replica.place
  by_cases own : table = other
  · subst own
    rw [if_pos rfl]
    exact congrArg₂ Prod.mk (Function.update_self ..) (Function.update_self ..)
  · rw [if_neg own]
    exact congrArg₂ Prod.mk (Function.update_of_ne (Ne.symm own) _ _) (Function.update_of_ne (Ne.symm own) _ _)

def Legible (item : Char × Reply) : Prop := ∀ line, item.2 = .register line →
  ∃ m r, readMessage true line = some m ∧ m.fromHub = true ∧ m.register = some (item.1, r)

theorem deliver_place (leaf : Replica) {item : Char × Reply} (legible : Legible item) (other : Char) :
    (leaf.deliver crc32hash names item).1.place other =
      if item.1 = other then follow Register.id (leaf.place other) (shipmentOf item.2) else leaf.place other := by
  obtain ⟨table, reply⟩ := item
  cases reply with
  | register line =>
    obtain ⟨m, r, reads, fromHub, given⟩ := legible line rfl
    rw [Replica.deliver, shipmentOf, reads, Option.bind_some, given]
    exact take_place leaf given fromHub other
  | burst id => exact (ite_self _).symm
  | drop => exact drop_place leaf table other
  | hash parameter => exact (ite_self _).symm

theorem deliver_requests (leaf : Replica) (item : Char × Reply) : (leaf.deliver crc32hash names item).2 =
    if item.2.weight = 0 then []
    else [(item.1, decimal ((leaf.deliver crc32hash names item).1.server.tables.idTable item.1))] := by
  obtain ⟨table, reply⟩ := item
  cases reply with
  | register line =>
    rw [Replica.deliver]
    split <;> rfl
  | burst id => rfl
  | drop => rfl
  | hash parameter => rfl

theorem delivered_place {items : List (Char × Reply)} (legible : ∀ item ∈ items, Legible item) (leaf : Replica)
    (table : Char) :
    (items.foldl (fun leaf item => (leaf.deliver crc32hash names item).1) leaf).place table =
      (((items.filter fun item => item.1 = table).map Prod.snd).map shipmentOf).foldl (follow Register.id)
        (leaf.place table) := by
  induction items generalizing leaf with
  | nil => rfl
  | cons item items ih =>
    rw [List.foldl_cons, ih (fun other mem => legible other (List.mem_cons_of_mem _ mem)),
      deliver_place leaf (legible item List.mem_cons_self), List.filter_cons]
    by_cases own : item.1 = table
    · rw [if_pos own, if_pos (decide_eq_true own)]
      rfl
    · rw [if_neg own, if_neg (by simpa using own)]

theorem take_kept {hub : Replica} (kept : Kept crc32hash me hub.server table (hub.log table))
    (unbroken : ∀ r, hub.server.taken m = some (table, r) → packs r = false → ' ' ∉ r.key.chars) :
    Kept crc32hash me (hub.take crc32hash me m).server table ((hub.take crc32hash me m).log table) := by
  have run := kept.run [m]
  rw [accepted, accepted, List.foldl_cons, List.foldl_nil] at run
  unfold Replica.take
  cases taken : hub.server.taken m with
  | none => exact kept
  | some given =>
    obtain ⟨table', r⟩ := given
    rw [taken] at run
    dsimp only at run ⊢
    by_cases own : table' = table
    · subst own
      rw [if_pos rfl] at run
      rw [Function.update_self]
      refine run fun x mem plain => ?_
      rw [List.mem_singleton.mp mem] at plain ⊢
      exact unbroken r taken plain
    · rw [if_neg own, List.append_nil] at run
      rw [Function.update_of_ne (Ne.symm own)]
      exact run fun x mem => absurd mem List.not_mem_nil

end

def Network.view (n : Network) (table : Char) : View where
  log := n.hub.log table
  last := n.leaf.server.tables.idTable table
  taken := n.leaf.log table
  onWay := (n.toLeaf.filter fun item => item.1 = table).map Prod.snd
  asked := (n.toHub.filter fun item => item.1 = table).map Prod.snd
  faucet := n.Open table

structure Logged (names : Names) (r : Register) : Prop where
  came : r.Came
  id_int : r.id < 2 ^ 31
  key_word : MiddleWord r.key.chars
  stored : packs r = false →
    (lineText r).length ≤ 501 ∧ (dbText names.yxx (registerMessage 'a' r)).length ≤ lineLen

structure Network.Good (crc32hash : Nat → Nat) (names : Names) (n : Network) : Prop where
  kept : ∀ table, Kept crc32hash names.hub n.hub.server table (n.hub.log table)
  logged : ∀ table, ∀ r ∈ n.hub.log table, Logged names r
  legible : ∀ item ∈ n.toLeaf, Legible item ∧ IsTable item.1
  requests : ∀ item ∈ n.toHub, IsTable item.1
  follows : ∀ table, IsTable table → (n.view table).Follows

section
variable {crc32hash : Nat → Nat} {names : Names} {n : Network}

theorem filter_none {α : Type} {table other : Char} (apart : other ≠ table) {items : List (Char × α)}
    (all : ∀ item ∈ items, item.1 = other) : items.filter (fun item => item.1 = table) = [] :=
  List.filter_eq_nil_iff.mpr fun item mem => by simpa [all item mem] using apart

theorem filter_all {α : Type} {table : Char} {items : List (Char × α)} (all : ∀ item ∈ items, item.1 = table) :
    items.filter (fun item => item.1 = table) = items :=
  List.filter_eq_self.mpr fun item mem => by simpa using all item mem

theorem good_start : Network.Good crc32hash names {} where
  kept table := Kept.start table
  logged _ _ mem := absurd mem List.not_mem_nil
  legible _ mem := absurd mem List.not_mem_nil
  requests _ mem := absurd mem List.not_mem_nil
  follows table _ := by
    have closed : (Network.view {} table).faucet = false := by
      have zero : (0 : UInt32) &&& ddbMask table = 0 := UInt32.zero_and
      change decide ((0 : UInt32) &&& ddbMask table ≠ 0) = false
      rw [zero]
      decide
    refine ⟨.nil, fun _ mem => absurd mem List.not_mem_nil, .inl rfl, rfl, ⟨0, .done, ?_, ?_⟩, ?_⟩
    · exact fun _ mem => absurd mem List.not_mem_nil
    · exact fun opened => absurd (closed.symm.trans opened) Bool.false_ne_true
    · rw [View.outstanding, closed]
      exact Nat.zero_le 2

theorem isTable_of_mem : ∀ table ∈ tableNames, IsTable table := by
  unfold IsTable
  decide

theorem ddbBurst_asked (s : Server) (table : Char) :
    (((ddbBurst s).filter fun item => item.1 = table).map Prod.snd).length ≤ 1 ∧
      ∀ parv4 ∈ ((ddbBurst s).filter fun item => item.1 = table).map Prod.snd,
        parv4 = decimal (s.tables.idTable table) := by
  have once : ('n' :: tableNames.filter (· ≠ 'n')).Nodup := by decide
  constructor
  · have count := List.nodup_iff_count_le_one.mp once table
    rw [List.length_map, ddbBurst, List.filter_map, List.length_map]
    refine le_trans (le_of_eq ?_) count
    rw [List.count, List.countP_eq_length_filter]
    congr 1
  · intro parv4 mem
    obtain ⟨item, inside, rfl⟩ := List.mem_map.mp mem
    obtain ⟨asked, own⟩ := List.mem_filter.mp inside
    obtain ⟨name, -, rfl⟩ := List.mem_map.mp asked
    have own : name = table := of_decide_eq_true own
    rw [own]

theorem Network.Good.linked (good : n.Good crc32hash names) : Network.Good crc32hash names { n with
    ddbOpen := 0
    toLeaf := []
    toHub := ddbBurst n.leaf.server ++ ddbBurst n.leaf.server } where
  kept := good.kept
  logged := good.logged
  legible _ mem := absurd mem List.not_mem_nil
  requests item mem := by
    have burst : item ∈ ddbBurst n.leaf.server := (List.mem_append.mp mem).elim id id
    obtain ⟨table, named, rfl⟩ := List.mem_map.mp burst
    change IsTable table
    rcases List.mem_cons.mp named with rfl | named
    · exact isTable_of_mem 'n' (by decide)
    · exact isTable_of_mem table (List.mem_of_mem_filter named)
  follows table isTable := by
    obtain ⟨few, all⟩ := ddbBurst_asked n.leaf.server table
    have view : Network.view { n with
        ddbOpen := 0
        toLeaf := []
        toHub := ddbBurst n.leaf.server ++ ddbBurst n.leaf.server } table =
        { n.view table with
          onWay := []
          asked := ((ddbBurst n.leaf.server ++ ddbBurst n.leaf.server).filter
            fun item => item.1 = table).map Prod.snd
          faucet := false } := by
      have closed : (0 : UInt32) &&& ddbMask table = 0 := UInt32.zero_and
      unfold Network.view Network.Open
      simp only [closed, List.filter_nil, List.map_nil, ne_eq, not_true_eq_false, decide_false]
    rw [view]
    refine (good.follows table isTable).linked ?_ ?_
    · rw [List.filter_append, List.map_append, List.length_append]
      omega
    · intro parv4 mem
      rw [List.filter_append, List.map_append] at mem
      exact all parv4 ((List.mem_append.mp mem).elim id id)

theorem Network.Good.highest (good : n.Good crc32hash names) {table : Char} {id : Nat}
    (higher : n.hub.server.tables.idTable table < id) : ∀ a ∈ n.hub.log table, a.id < id := by
  intro a mem
  have bounded := ((good.kept table).bounded a mem).2
  rw [(good.kept table).id] at higher
  omega

theorem Network.Good.registered (good : n.Good crc32hash names) {fromHub : Bool} {source : Numeric}
    {line : List Char} {m : Message} (reads : readMessage fromHub line = some m)
    (carried : ∀ table r, n.hub.server.taken m = some (table, r) → Carried names source r) :
    Network.Good crc32hash names (n.register crc32hash names source m) := by
  unfold Network.register
  cases taken : n.hub.server.taken m with
  | none => exact good
  | some given =>
    obtain ⟨table, r⟩ := given
    obtain ⟨given, higher⟩ := taken_register taken
    obtain ⟨came, named⟩ := register_came reads given
    have carried := carried table r taken
    have isTable := isTable_of_tableOf named
    have int := carried.id_int
    -- The leaf reads the line as the register that the hub has taken.
    have relayed : (dbText source (registerMessage m.tableName r)).length ≤ lineLen := by
      have relayed := carried.relayed
      rw [dbText, List.length_append, List.length_cons] at relayed ⊢
      rwa [length_registerMessage m.tableName 'a']
    obtain ⟨m', reads', fromHub', given'⟩ := read_dbLine named came carried.key_word (by omega) relayed
    have log : (n.hub.take crc32hash names.hub m).log =
        Function.update n.hub.log table (n.hub.log table ++ [r]) := by rw [Replica.take, taken]
    dsimp only
    refine ⟨fun other => take_kept (good.kept other) fun x same _ => ?_, fun other x mem => ?_, fun item mem => ?_,
      good.requests, fun other isOther => ?_⟩
    · rw [taken] at same
      obtain ⟨-, rfl⟩ := Prod.mk.inj (Option.some.inj same)
      exact carried.key_word.unbroken
    · dsimp only at mem
      rw [log] at mem
      by_cases own : other = table
      · subst own
        rw [Function.update_self] at mem
        rcases List.mem_append.mp mem with old | new
        · exact good.logged other x old
        · rw [List.mem_singleton.mp new]
          exact ⟨came, int, carried.key_word, carried.stored⟩
      · rw [Function.update_of_ne own] at mem
        exact good.logged other x mem
    · dsimp only at mem
      split_ifs at mem
      · rcases List.mem_append.mp mem with old | new
        · exact good.legible item old
        · rw [List.mem_singleton.mp new]
          refine ⟨fun text same => ?_, isTable⟩
          obtain rfl := Reply.register.inj same
          exact ⟨m', r, reads', fromHub', given'⟩
      · exact good.legible item mem
    · by_cases own : table = other
      · subst own
        have reads : shipmentOf (.register (dbLine source (registerMessage m.tableName r))) = .entry r := by
          rw [shipmentOf, reads', Option.bind_some, given']
          rfl
        have view := (good.follows table isTable).registered came.positive int (good.highest higher) reads
        unfold Network.view at view ⊢
        rw [log, Function.update_self]
        dsimp only at view ⊢
        by_cases opened : n.Open table
        · have line : [(table, Reply.register (dbLine source (registerMessage m.tableName r)))].filter
              (fun item => item.1 = table) =
                [(table, .register (dbLine source (registerMessage m.tableName r)))] := by
            simp
          rw [if_pos (decide_eq_true opened)] at view
          rw [if_pos opened, List.filter_append, line, List.map_append]
          exact view
        · rw [if_neg (by simpa using opened)] at view
          rw [if_neg opened]
          exact view
      · have view := good.follows other isOther
        unfold Network.view at view ⊢
        rw [log, Function.update_of_ne (Ne.symm own)]
        dsimp only at view ⊢
        by_cases opened : n.Open table
        · have line : [(table, Reply.register (dbLine source (registerMessage m.tableName r)))].filter
              (fun item => item.1 = other) = [] := by
            simp [own]
          rw [if_pos opened, List.filter_append, line, List.append_nil]
          exact view
        · rw [if_neg opened]
          exact view

def Names.sent (names : Names) : Reply → Reply
  | .register text => .register (dbLine names.yxx text)
  | reply => reply

theorem addressed_eq (table : Char) (reply : Reply) : names.addressed table reply = (table, names.sent reply) := by
  cases reply <;> rfl

theorem Network.Good.last_int (good : n.Good crc32hash names) (table : Char) :
    lastId (n.hub.log table) < 2 ^ 31 := by
  unfold lastId
  cases last : (n.hub.log table).getLast? with
  | none => decide
  | some r => exact (good.logged table r (List.mem_of_getLast? last)).id_int

theorem Network.Good.sendable (good : n.Good crc32hash names) {table : Char} {r : Register}
    (mem : r ∈ written (n.hub.log table)) : Sendable r := by
  obtain ⟨there, plain⟩ := List.mem_filter.mp mem
  have logged := good.logged table r there
  have int := logged.id_int
  exact ⟨logged.came.positive, by omega, (logged.stored (by simpa using plain)).1⟩

theorem Network.Good.read (good : n.Good crc32hash names) {table : Char} (isTable : IsTable table) {r : Register}
    (mem : r ∈ written (n.hub.log table)) : ∃ m,
      readMessage true (dbLine names.yxx (registerMessage table r)) = some m ∧ m.fromHub = true ∧
        m.register = some (table, r) := by
  obtain ⟨there, plain⟩ := List.mem_filter.mp mem
  have logged := good.logged table r there
  have int := logged.id_int
  refine read_dbLine (tableOf_isTable isTable) logged.came logged.key_word (by omega) ?_
  have short := (logged.stored (by simpa using plain)).2
  rw [dbText, List.length_append, List.length_cons] at short ⊢
  rwa [length_registerMessage table 'a']

theorem Network.Good.request (good : n.Good crc32hash names) {table : Char} {parv4 : List Char}
    {rest : List (Char × List Char)} (first : n.toHub = (table, parv4) :: rest) :
    ∃ x, parv4 = decimal x ∧ x < 2 ^ 31 := by
  have isTable : IsTable table := good.requests (table, parv4) (first ▸ List.mem_cons_self)
  obtain ⟨final, -, requests, -⟩ := (good.follows table isTable).ships
  obtain ⟨x, asked, -, small⟩ := requests parv4 (List.mem_map.mpr ⟨(table, parv4),
    List.mem_filter.mpr ⟨first ▸ List.mem_cons_self, decide_eq_true rfl⟩, rfl⟩)
  exact ⟨x, asked, small⟩

theorem Network.Good.answer (good : n.Good crc32hash names) (table : Char) {x : Nat} (small : x < 2 ^ 31)
    (ddbBuf : List Char) : ∃ ddbOpen replies,
      joinRequest false n.ddbOpen (UInt64.ofNat (n.hub.server.tables.idTable table))
        (n.hub.server.tables.hashTable table) ddbBuf (n.hub.server.files table) table (decimal x) =
          some (ddbOpen, replies) ∧ Answer (n.hub.log table) table n.ddbOpen x ddbOpen replies :=
  joinRequest_answer (good.kept table) (fun _ mem => good.sendable mem) (good.last_int table) small

theorem answered_other {table other : Char} (isTable : IsTable table)
    (isOther : IsTable other) (apart : table ≠ other) {parv4 : List Char} {rest : List (Char × List Char)}
    (first : n.toHub = (table, parv4) :: rest) {x : Nat} {ddbOpen : UInt32} {replies : List Reply}
    (answer : Answer (n.hub.log table) table n.ddbOpen x ddbOpen replies) :
    Network.view { n with
      ddbOpen
      toLeaf := n.toLeaf ++ replies.map (names.addressed table)
      toHub := rest } other = n.view other := by
  have faucet : ddbOpen &&& ddbMask other = n.ddbOpen &&& ddbMask other := by
    have disjoint := masks_apart isOther isTable (Ne.symm apart)
    cases answer with
    | current _ => exact opened_and disjoint
    | corrupt _ => exact closed_and disjoint
    | last _ _ _ _ => exact opened_and disjoint
    | more _ _ _ _ => rfl
    | silent _ _ _ => rfl
  unfold Network.view Network.Open
  dsimp only
  have nothing : (replies.map (names.addressed table)).filter (fun item => item.1 = other) = [] :=
    filter_none apart fun item mem => by
      obtain ⟨reply, -, rfl⟩ := List.mem_map.mp mem
      rw [addressed_eq]
  rw [first, List.filter_append, nothing, List.append_nil,
    List.filter_cons_of_neg (by simpa using apart)]
  simp only [faucet]
  rfl

theorem Answer.logged {log : List Register} {table : Char} {ddbOpen ddbOpen' : UInt32} {x : Nat}
    {replies : List Reply} (answer : Answer log table ddbOpen x ddbOpen' replies) {line : List Char}
    (mem : .register line ∈ replies) :
    ∃ r ∈ written log, line = registerMessage table r := by
  have inside {front part back : List Register} (whole : written log = front ++ part ++ back)
      (mem : .register line ∈ partReplies table part) : ∃ r ∈ written log, line = registerMessage table r := by
    obtain ⟨r, here, same⟩ := List.mem_map.mp mem
    exact ⟨r, by simp [whole, here], (Reply.register.inj same).symm⟩
  cases answer with
  | current _ => cases mem
  | corrupt _ => simp at mem
  | @last front part _ whole _ _ =>
    have whole : written log = front ++ part ++ [] := by rw [whole, List.append_nil]
    exact inside whole (by simpa using mem)
  | more _ whole _ _ => exact inside whole (by simpa using mem)
  | silent _ whole _ => exact inside whole mem

theorem Network.Good.parts (good : n.Good crc32hash names) {table : Char} (isTable : IsTable table)
    {front part back : List Register} (whole : written (n.hub.log table) = front ++ part ++ back) :
    ((partReplies table part).map names.sent).map shipmentOf = part.map .entry ∧
      ∀ reply ∈ (partReplies table part).map names.sent, reply.weight = 0 := by
  unfold partReplies
  rw [List.map_map, List.map_map]
  refine ⟨List.map_congr_left fun r mem => ?_, fun reply mem => ?_⟩
  · obtain ⟨m, reads, -, given⟩ := good.read isTable (r := r) (by simp [whole, mem])
    change shipmentOf (.register (dbLine names.yxx (registerMessage table r))) = .entry r
    rw [shipmentOf, reads, Option.bind_some, given]
    rfl
  · obtain ⟨sent, there, rfl⟩ := List.mem_map.mp mem
    obtain ⟨r, -, rfl⟩ := List.mem_map.mp there
    rfl

theorem Network.Good.answered_own (good : n.Good crc32hash names) {table : Char} (isTable : IsTable table)
    {x : Nat} {asked : List (List Char)} (first : (n.view table).asked = decimal x :: asked) {ddbOpen : UInt32}
    {replies : List Reply} (answer : Answer (n.hub.log table) table n.ddbOpen x ddbOpen replies) :
    View.Follows { n.view table with
      asked
      onWay := (n.view table).onWay ++ replies.map names.sent
      faucet := decide (ddbOpen &&& ddbMask table ≠ 0) } := by
  have follows := good.follows table isTable
  have opened (ddbOpen : UInt32) : decide ((ddbOpen ||| ddbMask table) &&& ddbMask table ≠ 0) = true := by
    rw [or_and_mask]
    exact decide_eq_true (ddbMask_ne_zero table)
  have closed {ddbOpen : UInt32} (zero : ddbOpen &&& ddbMask table = 0) :
      decide (ddbOpen &&& ddbMask table ≠ 0) = false := by
    rw [zero]
    decide
  cases answer with
  | current all =>
    rw [opened, List.map_nil, List.append_nil]
    refine follows.current first fun r mem => ?_
    exact ((good.kept table).bounded r mem).2.trans all
  | corrupt set =>
    rw [closed closed_mask]
    exact follows.corrupt first (decide_eq_true set)
  | @last front part shut whole low parameter =>
    have whole : written (n.hub.log table) = front ++ part ++ [] := by rw [whole, List.append_nil]
    obtain ⟨reads, weightless⟩ := good.parts isTable whole
    rw [opened, List.map_append]
    refine follows.answered first (closed shut) whole low reads weightless ?_
      (by simp [Reply.weight, Names.sent]) fun _ => rfl
    intro reply mem
    rw [List.mem_singleton.mp mem]
    rfl
  | more shut whole low id =>
    obtain ⟨reads, weightless⟩ := good.parts isTable whole
    rw [closed shut, List.map_append]
    refine follows.answered first (closed shut) whole low reads weightless ?_ (by simp [Reply.weight, Names.sent])
      fun there => absurd there Bool.false_ne_true
    intro reply mem
    rw [List.mem_singleton.mp mem]
    rfl
  | silent shut whole low =>
    obtain ⟨reads, weightless⟩ := good.parts isTable whole
    have light : (([] : List Reply).map Reply.weight).sum + false.toNat ≤ 1 := by decide
    have answered := follows.answered first (closed shut) whole low reads weightless
      (fun _ mem => absurd mem List.not_mem_nil) light fun there => absurd there Bool.false_ne_true
    rw [List.append_nil] at answered
    rw [closed shut]
    exact answered

theorem Network.Good.answered (good : n.Good crc32hash names) {table : Char} {parv4 : List Char}
    {rest : List (Char × List Char)} (first : n.toHub = (table, parv4) :: rest) {x : Nat}
    (asked : parv4 = decimal x) {ddbOpen : UInt32} {replies : List Reply}
    (answer : Answer (n.hub.log table) table n.ddbOpen x ddbOpen replies) : Network.Good crc32hash names { n with
      ddbOpen
      toLeaf := n.toLeaf ++ replies.map (names.addressed table)
      toHub := rest } := by
  have isTable : IsTable table := good.requests (table, parv4) (first ▸ List.mem_cons_self)
  refine ⟨good.kept, good.logged, fun item mem => ?_, fun item mem => good.requests item
    (first ▸ List.mem_cons_of_mem _ mem), fun other isOther => ?_⟩
  · rcases List.mem_append.mp mem with old | new
    · exact good.legible item old
    · obtain ⟨reply, inside, rfl⟩ := List.mem_map.mp new
      rw [addressed_eq]
      refine ⟨fun line same => ?_, isTable⟩
      cases reply with
      | register text =>
        obtain ⟨r, there, rfl⟩ := answer.logged inside
        obtain rfl := Reply.register.inj same
        obtain ⟨m, read⟩ := good.read isTable there
        exact ⟨m, r, read⟩
      | burst id => cases same
      | drop => cases same
      | hash parameter => cases same
  · by_cases own : table = other
    · subst own
      have head : (n.view table).asked =
          decimal x :: (rest.filter fun item => item.1 = table).map Prod.snd := by
        unfold Network.view
        rw [first, List.filter_cons_of_pos (by simp), List.map_cons, asked]
      have view := good.answered_own isTable head answer
      have sent : ((replies.map (names.addressed table)).filter fun item => item.1 = table).map Prod.snd =
          replies.map names.sent := by
        rw [filter_all fun item mem => by
          obtain ⟨reply, -, rfl⟩ := List.mem_map.mp mem
          rw [addressed_eq], List.map_map]
        exact List.map_congr_left fun reply _ => by rw [Function.comp_apply, addressed_eq]
      unfold Network.view at view ⊢
      dsimp only at view ⊢
      rw [List.filter_append, List.map_append, sent]
      exact view
    · rw [answered_other isTable isOther own first answer]
      exact good.follows other isOther

theorem Network.Good.delivered (good : n.Good crc32hash names) {item : Char × Reply} {rest : List (Char × Reply)}
    (first : n.toLeaf = item :: rest) : Network.Good crc32hash names { n with
      leaf := (n.leaf.deliver crc32hash names item).1
      toLeaf := rest
      toHub := n.toHub ++ (n.leaf.deliver crc32hash names item).2 } := by
  obtain ⟨legible, isTable⟩ := good.legible item (first ▸ List.mem_cons_self)
  have requests := @deliver_requests crc32hash names n.leaf item
  have place (other : Char) := @deliver_place crc32hash names n.leaf item legible other
  refine ⟨good.kept, good.logged, fun other mem => good.legible other (first ▸ List.mem_cons_of_mem _ mem),
    fun other mem => ?_, fun other isOther => ?_⟩
  · rcases List.mem_append.mp mem with old | new
    · exact good.requests other old
    · rw [requests] at new
      split_ifs at new
      · cases new
      · rw [List.mem_singleton.mp new]
        exact isTable
  · by_cases own : item.1 = other
    · subst own
      have head : (n.view item.1).onWay = item.2 :: (rest.filter fun other => other.1 = item.1).map Prod.snd := by
        unfold Network.view
        rw [first, List.filter_cons_of_pos (by simp), List.map_cons]
      have view := (good.follows item.1 isTable).delivered head
      have now := place item.1
      rw [if_pos rfl] at now
      have last := congrArg Prod.fst now
      have taken := congrArg Prod.snd now
      unfold Replica.place at last taken
      dsimp only at last taken
      have asked : ((n.leaf.deliver crc32hash names item).2.filter fun other => other.1 = item.1).map Prod.snd =
          if item.2.weight = 0 then [] else
            [decimal ((n.leaf.deliver crc32hash names item).1.server.tables.idTable item.1)] := by
        rw [requests]
        split_ifs
        · rfl
        · simp
      unfold Network.view at view ⊢
      dsimp only at view ⊢
      rw [List.filter_append, List.map_append, asked, last, taken]
      exact view
    · have now := place other
      rw [if_neg own] at now
      have last := congrArg Prod.fst now
      have taken := congrArg Prod.snd now
      unfold Replica.place at last taken
      dsimp only at last taken
      have nothing : (n.leaf.deliver crc32hash names item).2.filter (fun asked => asked.1 = other) = [] := by
        rw [requests]
        split_ifs
        · rfl
        · simp [own]
      have view := good.follows other isOther
      unfold Network.view at view ⊢
      rw [first, List.filter_cons_of_neg (by simpa using own)] at view
      dsimp only at view ⊢
      rw [List.filter_append, nothing, List.append_nil, last, taken]
      exact view

theorem Network.Good.step (good : n.Good crc32hash names) {event : LinkEvent} (carries : n.Carries names event)
    {n' : Network} (goes : n.step crc32hash names event = some n') : n'.Good crc32hash names := by
  cases event with
  | link =>
    obtain rfl := Option.some.inj goes
    exact good.linked
  | register fromHub source line =>
    rw [Network.step] at goes
    cases reads : readMessage fromHub line with
    | none =>
      rw [reads] at goes
      obtain rfl := Option.some.inj goes
      exact good
    | some m =>
      rw [reads] at goes
      obtain rfl := Option.some.inj goes
      exact good.registered reads fun table r taken => carries m table r reads taken
  | request ddbBuf =>
    rw [Network.step] at goes
    cases first : n.toHub with
    | nil =>
      rw [first] at goes
      cases goes
    | cons request rest =>
      obtain ⟨table, parv4⟩ := request
      obtain ⟨x, asked, small⟩ := good.request first
      obtain ⟨ddbOpen, replies, answers, answer⟩ := good.answer table small ddbBuf
      rw [first] at goes
      dsimp only at goes
      rw [asked, answers] at goes
      obtain rfl := Option.some.inj goes
      exact good.answered first asked answer
  | deliver =>
    rw [Network.step] at goes
    cases first : n.toLeaf with
    | nil =>
      rw [first] at goes
      cases goes
    | cons item rest =>
      rw [first] at goes
      obtain rfl := Option.some.inj goes
      exact good.delivered first

theorem reachable_good {n : Network} (reached : Network.Reachable crc32hash names (Network.Carries names) n) :
    n.Good crc32hash names := by
  induction reached with
  | start => exact good_start
  | step _ carries goes good => exact good.step carries goes

theorem Network.Good.replicated (good : n.Good crc32hash names) : n.Replicated crc32hash names where
  applied table isTable := (good.follows table isTable).mirrors.kept_prefix (good.follows table isTable).increasing
  sent table isTable opened := by
    have follows := good.follows table isTable
    obtain ⟨final, ships, -, highest⟩ := follows.ships
    obtain ⟨last, mirrors⟩ := ships.mirrors follows.increasing (fun r mem => (follows.bounded r mem).1)
      follows.mirrors
    have delivered := @delivered_place crc32hash names n.toLeaf (fun item mem => (good.legible item mem).1)
      n.leaf table
    change (n.delivered crc32hash names).place table = _ at delivered
    have whole := mirrors.all fun r mem kept => (highest (decide_eq_true opened) r mem kept).trans last.ge
    change ((n.delivered crc32hash names).place table).2.filter stays = (n.hub.log table).filter stays
    rw [delivered]
    exact whole
  forwarded table fromHub source line m r opened reads taken := by
    refine ⟨n.register crc32hash names source m, by rw [Network.step, reads], ?_, ?_⟩
    · rw [Network.register, taken]
      exact opened
    · rw [Network.register, taken]
      exact if_pos opened

/-- In every run in which the registers of the hub are carried, each table of the leaf has a first part of what the
hub has, and an open faucet leaves nothing out. -/
theorem leaf_replicated {n : Network} (reached : Network.Reachable crc32hash names (Network.Carries names) n) :
    n.Replicated crc32hash names :=
  (reachable_good reached).replicated

end

def Network.run (crc32hash : Nat → Nat) (names : Names) (n : Network) : List LinkEvent → Option Network
  | [] => some n
  | event :: events => (n.step crc32hash names event).bind fun n => n.run crc32hash names events

theorem run_reachable {crc32hash : Nat → Nat} {names : Names} {allowed : Network → LinkEvent → Prop}
    {n n' : Network} (reached : Network.Reachable crc32hash names allowed n) {events : List LinkEvent}
    (fair : ∀ event ∈ events, ∀ n, allowed n event) (goes : n.run crc32hash names events = some n') :
    Network.Reachable crc32hash names allowed n' := by
  induction events generalizing n with
  | nil =>
    obtain rfl := Option.some.inj goes
    exact reached
  | cons event events ih =>
    obtain ⟨between, step, goes⟩ := Option.bind_eq_some_iff.mp goes
    exact ih (reached.step (fair event List.mem_cons_self n) step)
      (fun other mem => fair other (List.mem_cons_of_mem event mem)) goes

deriving instance DecidableEq for Register

theorem numericA_unbroken : ' ' ∉ ['A'] := by decide

theorem numericA_clean : Clean ['A'] := by decide

def numericA : Numeric := ⟨['A'], numericA_unbroken, numericA_clean⟩

def pairNames : Names := ⟨textA, textB, numericA⟩

def lateLink : List LinkEvent :=
  [.link, .request [], .request [], .deliver]

def registerSeven : LinkEvent := .register true numericA "A DB * 7 a k :x".toList

theorem registerSeven_carries : Network.Carries pairNames {} registerSeven := by
  intro m table r reads taken
  have read : (readMessage true "A DB * 7 a k :x".toList).bind Message.register =
      some ('a', ⟨7, starMask, stringOf ['k'], some (stringOf ['x'])⟩) := by decide +kernel
  rw [reads, Option.bind_some, (taken_register taken).1] at read
  obtain ⟨rfl, rfl⟩ := Prod.mk.inj (Option.some.inj read)
  refine ⟨by decide, ⟨by decide +kernel, by decide +kernel, by decide +kernel⟩, by decide +kernel, fun _ => ?_⟩
  exact ⟨by decide +kernel, by decide +kernel⟩

theorem leaf_replicated_seven : ∃ n, Network.run crc32Table pairNames {} (registerSeven :: lateLink) = some n ∧
    n.Replicated crc32Table pairNames ∧ (n.leaf.log 'a').map Register.id = [7] := by
  have runs : (Network.run crc32Table pairNames {} (registerSeven :: lateLink)).map
      (fun n => (n.leaf.log 'a').map Register.id) = some [7] := by decide +kernel
  obtain ⟨n, goes, taken⟩ := Option.map_eq_some_iff.mp runs
  obtain ⟨between, step, behind⟩ := Option.bind_eq_some_iff.mp goes
  have first := Network.Reachable.start.step registerSeven_carries step
  refine ⟨n, goes, leaf_replicated (run_reachable first ?_ behind), taken⟩
  intro event mem n
  simp only [lateLink, List.mem_cons, List.not_mem_nil, or_false] at mem
  rcases mem with rfl | rfl | rfl | rfl <;> trivial

def largeIds : List LinkEvent :=
  [.register true numericA "A DB * 2147483648 a k :x".toList, .link, .request [], .request [], .deliver,
    .register true numericA "A DB * 2147483649 a k :y".toList, .link, .request [], .request [],
    .register true numericA "A DB * 2147483650 a k :z".toList, .deliver]

/-- The request for what is behind 2147483648 opens the faucet, and the leaf never gets 2147483649. -/
theorem largeIds_not_replicated : ¬∀ n, Network.Reachable crc32Table pairNames (fun _ _ => True) n →
    n.Replicated crc32Table pairNames := by
  intro all
  have runs : (Network.run crc32Table pairNames {} largeIds).map
      (fun n => ((written (n.leaf.log 'a')).map Register.id, (written (n.hub.log 'a')).map Register.id)) =
        some ([2147483648, 2147483650], [2147483648, 2147483649, 2147483650]) := by decide +kernel
  obtain ⟨n, goes, logs⟩ := Option.map_eq_some_iff.mp runs
  obtain ⟨leaf, hub⟩ := Prod.mk.inj logs
  have reached := run_reachable .start (fun _ _ _ => trivial) goes
  have applied := ((all n reached).applied 'a' ⟨by decide, by decide⟩).map Register.id
  rw [leaf, hub] at applied
  exact absurd applied (by decide)

end Ircd.Ddb
