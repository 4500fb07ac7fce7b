import Ircd.Ddb.HubLeaf

/-! A register on its way through the lines.

Whether it comes from the file of the hub or goes on as it came in, the leaf reads a register that is carried as
the hub has it.
-/

set_option autoImplicit false

namespace Ircd.Ddb
open Ircd.Match Ircd.Text

structure Register.Came (r : Register) : Prop where
  positive : 0 < r.id
  mask_word : MiddleWord r.mask.chars
  mask_clean : Clean r.mask.chars
  key_clean : Clean r.key.chars
  content_clean : ∀ content ∈ r.content, Clean content.chars

variable {table : Char}

theorem isTable_of_tableOf {c : Char} (named : tableOf c = some table) : IsTable table := by
  unfold tableOf at named
  split_ifs at named with letter nicks
  · obtain rfl := Option.some.inj named
    exact letter
  · obtain rfl := Option.some.inj named
    exact ⟨by decide, by decide⟩

theorem tableOf_isTable (isTable : IsTable table) : tableOf table = some table := by
  unfold IsTable at isTable
  rw [tableOf, if_pos isTable]

theorem register_came {fromHub : Bool} {line : List Char} {m : Message}
    (reads : readMessage fromHub line = some m) {r : Register} (given : m.register = some (table, r)) :
    r.Came ∧ tableOf m.tableName = some table := by
  unfold readMessage at reads
  split_ifs at reads with sound
  obtain rfl := Option.some.inj reads
  have clean {p : CString} (mem : p ∈ (lineMessage fromHub line sound.1 sound.2).parv) : Clean p.chars :=
    parameter_clean sound.1 mem
  have middle {p : CString} (mem : p ∈ (lineMessage fromHub line sound.1 sound.2).parv.dropLast) :
      MiddleWord p.chars := parameter_middle sound.1 mem
  unfold Message.register at given
  unfold Message.tableName
  generalize (lineMessage fromHub line sound.1 sound.2).parv = parv at given clean middle
  rcases parv with _ | ⟨mask, _ | ⟨number, _ | ⟨name, _ | ⟨key, rest⟩⟩⟩⟩
  · cases given
  · cases given
  · cases given
  · cases given
  · dsimp only at given
    rcases one : name.chars with _ | ⟨c, _ | ⟨d, more⟩⟩
    · rw [one] at given
      cases given
    · rw [one] at given
      dsimp only at given
      split_ifs at given with zero
      obtain ⟨t, named, same⟩ := Option.map_eq_some_iff.mp given
      obtain ⟨rfl, rfl⟩ := Prod.mk.inj same
      refine ⟨⟨Nat.pos_of_ne_zero zero, middle List.mem_cons_self, clean List.mem_cons_self, clean (by simp), ?_⟩,
        ?_⟩
      · intro content mem
        exact clean (by simp [List.mem_of_head? mem])
      · simpa [one] using named
    · rw [one] at given
      cases given

theorem length_registerMessage (c d : Char) (r : Register) :
    (registerMessage c r).length = (registerMessage d r).length := by
  simp only [registerMessage, List.length_append, List.length_cons]

theorem small_of_le {c d : Char} (below : c ≤ d) (small : d.toNat < 256) : c.toNat < 256 :=
  (UInt32.le_iff_toNat_le.mp below).trans_lt small

theorem clean_decimal (n : Nat) : Clean (decimal n) := by
  have digit {c : Char} (mem : c ∈ decimal n) : isDigit c = true := isDigit_of_mem_toDigits mem
  refine ⟨fun mem => absurd (digit mem) (by decide), ⟨fun mem => absurd (digit mem) (by decide),
    fun mem => absurd (digit mem) (by decide)⟩, fun c mem => ?_⟩
  have code := digit mem
  simp only [isDigit, Bool.and_eq_true, decide_eq_true_eq] at code
  exact small_of_le code.2 (by decide)

theorem name_word {c : Char} (named : tableOf c = some table) : MiddleWord [c] ∧ Clean [c] := by
  have letter : 'a' ≤ c ∧ c ≤ 'z' ∨ c = 'N' := by
    unfold tableOf at named
    split_ifs at named with letter nicks
    · exact .inl letter
    · exact .inr nicks
  have other (d : Char) (outside : ¬('a' ≤ d ∧ d ≤ 'z' ∨ d = 'N')) : d ∉ [c] := by
    intro mem
    rw [List.mem_singleton.mp mem] at outside
    exact outside letter
  refine ⟨⟨List.cons_ne_nil _ _, other ' ' (by decide), ?_⟩, other nul (by decide),
    ⟨other '\n' (by decide), other '\r' (by decide)⟩, fun d mem => ?_⟩
  · rintro rfl
    exact absurd letter (by decide)
  · rw [List.mem_singleton.mp mem]
    rcases letter with ⟨-, low⟩ | rfl
    · exact small_of_le low (by decide)
    · decide

def registerWords (name : Char) (r : Register) : List (List Char) :=
  [r.mask.chars, decimal r.id, [name], r.key.chars]

theorem registerWords_middle {name : Char} {r : Register} (named : tableOf name = some table) (came : r.Came)
    (key_word : MiddleWord r.key.chars) : ∀ word ∈ registerWords name r, MiddleWord word := by
  intro word mem
  simp only [registerWords, List.mem_cons, List.not_mem_nil, or_false] at mem
  rcases mem with rfl | rfl | rfl | rfl
  · exact came.mask_word
  · exact printed_middle r.id
  · exact (name_word named).1
  · exact key_word

theorem registerMessage_words (name : Char) (r : Register) : ' ' :: registerMessage name r =
    (registerWords name r).flatMap (' ' :: ·) ++ r.content.elim [] fun content => ' ' :: ':' :: content.chars := by
  simp [registerMessage, registerWords]

theorem splitParams_register {name : Char} {r : Register} (named : tableOf name = some table) (came : r.Came)
    (key_word : MiddleWord r.key.chars) : splitParams maxPara none (' ' :: registerMessage name r) =
      registerWords name r ++ (r.content.map CString.chars).toList := by
  have middle := registerWords_middle named came key_word
  have room : (registerWords name r).length < maxPara := by
    change 4 < 15
    decide
  rw [registerMessage_words]
  cases r.content with
  | none =>
    rw [Option.elim_none, List.append_nil, splitParams_words maxPara middle room]
    rfl
  | some content => exact splitParams_join maxPara middle room content.chars

theorem clean_blank : Clean [' '] := by decide

theorem registerMessage_clean {name : Char} {r : Register} (named : tableOf name = some table) (came : r.Came) :
    Clean (registerMessage name r) := by
  have content : Clean (r.content.elim [] fun content => ' ' :: ':' :: content.chars) := by
    cases some_content : r.content with
    | none => exact (by decide : Clean [])
    | some content => exact (by decide : Clean [' ', ':']).append (came.content_clean content some_content)
  have word := (name_word named).2
  have whole := came.mask_clean.append (clean_blank.append ((clean_decimal r.id).append (clean_blank.append
    (word.append (clean_blank.append (came.key_clean.append content))))))
  simpa [registerMessage] using whole

theorem read_dbLine {source : Numeric} {name : Char} {r : Register} (named : tableOf name = some table)
    (came : r.Came) (key_word : MiddleWord r.key.chars) (small : r.id < 2 ^ 63)
    (fits : (dbText source (registerMessage name r)).length ≤ lineLen) :
    ∃ m, readMessage true (dbLine source (registerMessage name r)) = some m ∧ m.fromHub = true ∧
      m.register = some (table, r) := by
  have uncut : dbLine source (registerMessage name r) = dbText source (registerMessage name r) :=
    List.take_of_length_le fits
  have clean : Clean (dbText source (registerMessage name r)) :=
    (source.clean.append (by decide : Clean [' ', 'D', 'B'])).append
      (clean_blank.append (registerMessage_clean named came))
  have params : lineParams (dbText source (registerMessage name r)) =
      registerWords name r ++ (r.content.map CString.chars).toList := by
    rw [dbText, lineParams_command source.unbroken (by decide) (by decide)]
    exact splitParams_register named came key_word
  rw [uncut]
  refine ⟨lineMessage true _ clean fits, by rw [readMessage, dif_pos ⟨clean, fits⟩], rfl, ?_⟩
  have parv : (lineMessage true _ clean fits).parv =
      [r.mask, stringOf (decimal r.id), stringOf [name], r.key] ++ r.content.toList := by
    change (lineParams _).map stringOf = _
    rw [params, registerWords, List.map_append]
    simp only [List.map_cons, List.map_nil, stringOf_chars]
    cases r.content with
    | none => rfl
    | some content => exact congrArg (_ ++ [·]) (stringOf_chars content)
  have id : (atol (decimal r.id) % 2 ^ 64).toNat = r.id := by
    have value := @atol_printed r.id [] rfl
    rw [List.append_nil] at value
    rw [decimal, value]
    omega
  rw [Message.register, parv]
  dsimp only [List.cons_append, List.nil_append]
  rw [stringOf_clean (name_word named).2, stringOf_clean (clean_decimal r.id), id]
  dsimp only
  rw [if_neg came.positive.ne', named, Option.map_some]
  cases r with
  | mk rid mask key content => cases content <;> rfl

end Ircd.Ddb
