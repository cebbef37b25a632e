import Foreman.Proofs.GateBinding
import Foreman.Settings.Basic
import Mathlib.Data.Nat.Digits.Defs

/-! Which texts a count is read from. They are described here by what they look like and
by the number that they spell, however long they are. All others are refused. A text is
read in the same way by its characters and by its bytes. -/

namespace Foreman

namespace Settings

variable {text row : List Char} {value : Int}

/-! Numbers as they are spelled. -/

def blanks : List Char := [' ', '\t', '\n', '\x0b', '\x0c', '\r']

/-- Decimal digits, at least one. -/
structure IsRow (row : List Char) : Prop where
  some : row ≠ []
  digits : ∀ c ∈ row, '0' ≤ c ∧ c ≤ '9'

/-- What the digits of a row add up to, each at its place. -/
def placeValue (row : List Char) : Nat :=
  Nat.ofDigits 10 (row.reverse.map fun digit => digit.toNat - '0'.toNat)

/-- The text is a number with at most one sign. -/
inductive Signed : List Char → Int → Prop where
  | plain {row : List Char} (digits : IsRow row) : Signed row (placeValue row)
  | plus {row : List Char} (digits : IsRow row) : Signed ('+' :: row) (placeValue row)
  | minus {row : List Char} (digits : IsRow row) : Signed ('-' :: row) (-placeValue row)

/-- The text is a number behind any number of blanks, with nothing after it. -/
inductive Spells : List Char → Int → Prop where
  | number {text : List Char} {value : Int} (signed : Signed text value) : Spells text value
  | blank {c : Char} {text : List Char} {value : Int} (blank : c ∈ blanks)
      (rest : Spells text value) : Spells (c :: text) value

/-! Each of these texts is read as its number. -/

theorem isBlank_iff {c : Char} : isBlank c = true ↔ c ∈ blanks := by
  simp [isBlank, blanks, or_assoc]

theorem isDigit_iff {c : Char} : c.isDigit = true ↔ '0' ≤ c ∧ c ≤ '9' := by
  simp [Char.isDigit, Char.le_def]

/-- Digit by digit, a row is worth what its digits add up to. -/
theorem decimal_eq_placeValue (row : List Char) : decimal row = placeValue row := by
  rw [decimal, placeValue, Nat.ofDigits_eq_foldr, List.foldr_map, List.foldl_eq_foldr_reverse]
  congr 1
  funext digit value
  exact Nat.add_comm _ _

theorem splitSign_plain (digits : IsRow row) : splitSign row = (false, row) := by
  cases row with
  | nil => exact absurd rfl digits.some
  | cons c rest =>
    obtain ⟨least, _⟩ := digits.digits c List.mem_cons_self
    have minus : c ≠ '-' := by rintro rfl; exact absurd least (by decide)
    have plus : c ≠ '+' := by rintro rfl; exact absurd least (by decide)
    simp [splitSign, minus, plus]

theorem Signed.unblank (signed : Signed text value) : text.dropWhile isBlank = text := by
  cases signed with
  | plus _ | minus _ => rfl
  | plain digits =>
    cases text with
    | nil => rfl
    | cons c rest =>
      apply List.dropWhile_cons_of_neg
      intro blank
      obtain ⟨least, _⟩ := digits.digits c List.mem_cons_self
      have member := isBlank_iff.mp blank
      simp only [blanks, List.mem_cons, List.not_mem_nil, or_false] at member
      rcases member with rfl | rfl | rfl | rfl | rfl | rfl <;> exact absurd least (by decide)

theorem readInteger_row {negative : Bool} (digits : IsRow row)
    (unblank : text.dropWhile isBlank = text) (split : splitSign text = (negative, row)) :
    readInteger text =
      some (saturate (if negative then -placeValue row else placeValue row), []) := by
  have all : ∀ c ∈ row, c.isDigit = true := fun c member => isDigit_iff.mpr (digits.digits c member)
  have taken : row.takeWhile Char.isDigit = row := by
    simpa using @List.takeWhile_append_of_pos _ _ row [] all
  have dropped : row.dropWhile Char.isDigit = [] := by
    simpa using @List.dropWhile_append_of_pos _ _ row [] all
  have filled : row.isEmpty = false := List.isEmpty_eq_false_iff.mpr digits.some
  simp [readInteger, unblank, split, taken, dropped, filled, decimal_eq_placeValue]

theorem readInteger_signed (signed : Signed text value) :
    readInteger text = some (saturate value, []) := by
  have unblank := signed.unblank
  cases signed with
  | plain digits => simpa using readInteger_row digits unblank (splitSign_plain digits)
  | @plus row digits =>
    have split : splitSign ('+' :: row) = (false, row) := rfl
    simpa using readInteger_row digits unblank split
  | @minus row digits =>
    have split : splitSign ('-' :: row) = (true, row) := rfl
    simpa using readInteger_row digits unblank split

theorem readInteger_blank {c : Char} (blank : c ∈ blanks) (text : List Char) :
    readInteger (c :: text) = readInteger text := by
  simp only [readInteger, List.dropWhile_cons, isBlank_iff.mpr blank, if_true]

theorem Spells.read (spelled : Spells text value) :
    readInteger text = some (saturate value, []) := by
  induction spelled with
  | number signed => exact readInteger_signed signed
  | blank blank _ ih => rw [readInteger_blank blank, ih]

/-! No other text is read. -/

theorem splitSign_cases {negative : Bool} (split : splitSign text = (negative, row)) :
    text = '-' :: row ∧ negative = true ∨ text = '+' :: row ∧ negative = false ∨
      text = row ∧ negative = false := by
  simp only [splitSign] at split
  split at split <;> cases split <;> simp

theorem signed_of_read (unblank : text.dropWhile isBlank = text)
    (found : readInteger text = some (value, [])) :
    ∃ number, Signed text number ∧ value = saturate number := by
  cases split : splitSign text with
  | mk negative row =>
    simp only [readInteger, unblank, split] at found
    split at found
    · cases found
    next nonempty =>
      obtain ⟨same, dropped⟩ := Prod.mk.inj (Option.some.inj found)
      have taken : row.takeWhile Char.isDigit = row := by
        simpa [dropped] using List.takeWhile_append_dropWhile (p := Char.isDigit) (l := row)
      rw [taken, decimal_eq_placeValue] at same
      rw [taken] at nonempty
      have digits : IsRow row := by
        refine ⟨fun empty => nonempty (by simp [empty]), fun c member => isDigit_iff.mp ?_⟩
        rw [← taken] at member
        exact List.all_eq_true.mp List.all_takeWhile c member
      rcases splitSign_cases split with ⟨rfl, rfl⟩ | ⟨rfl, rfl⟩ | ⟨rfl, rfl⟩
      · exact ⟨_, .minus digits, same.symm⟩
      · exact ⟨_, .plus digits, same.symm⟩
      · exact ⟨_, .plain digits, same.symm⟩

theorem spells_of_read (found : readInteger text = some (value, [])) :
    ∃ number, Spells text number ∧ value = saturate number := by
  induction text with
  | nil => cases found
  | cons c rest ih =>
    by_cases blank : c ∈ blanks
    · rw [readInteger_blank blank] at found
      obtain ⟨number, spelled, same⟩ := ih found
      exact ⟨number, .blank blank spelled, same⟩
    · have unblank : (c :: rest).dropWhile isBlank = c :: rest :=
        List.dropWhile_cons_of_neg fun found => blank (isBlank_iff.mp found)
      obtain ⟨number, signed, same⟩ := signed_of_read unblank found
      exact ⟨number, .number signed, same⟩

/-! What is read is a count if it is in range. -/

/-- No number gets into the range because it is held back at a bound. -/
theorem saturate_in_range {least : Int} (positive : 0 ≤ least)
    (inside : least ≤ saturate value ∧ saturate value ≤ 4096 ∨ least ≤ value ∧ value ≤ 4096) :
    saturate value = value := by
  simp only [saturate] at inside ⊢
  omega

def least (allowZero : Bool) : Int := if allowZero then 0 else 1

/-- The text spells a count. -/
def Counts (allowZero : Bool) (text : String) (value : Int) : Prop :=
  Spells text.toList value ∧ least allowZero ≤ value ∧ value ≤ 4096

theorem least_positive (allowZero : Bool) : 0 ≤ least allowZero := by
  cases allowZero <;> decide

theorem integer?_eq_some_iff {text : String} :
    integer? text = some value ↔ ∃ number, Spells text.toList number ∧ value = saturate number := by
  constructor
  · intro found
    simp only [integer?] at found
    split at found
    next read =>
      cases found
      exact spells_of_read read
    · cases found
  · rintro ⟨number, spelled, rfl⟩
    simp only [integer?, spelled.read]

theorem count?_eq_some_iff {allowZero : Bool} {text : String} :
    count? allowZero text = some value ↔ Counts allowZero text value := by
  have positive := least_positive allowZero
  have inRange : (least allowZero ≤ value && value ≤ 4096) = true ↔
      least allowZero ≤ value ∧ value ≤ 4096 := by simp
  refine (Option.filter_eq_some_iff.trans (and_congr integer?_eq_some_iff inRange)).trans ?_
  constructor
  · rintro ⟨⟨number, spelled, rfl⟩, range⟩
    have same := saturate_in_range positive (Or.inl range)
    rw [same] at range ⊢
    exact ⟨spelled, range⟩
  · rintro ⟨spelled, range⟩
    exact ⟨⟨value, spelled, (saturate_in_range positive (Or.inr range)).symm⟩, range⟩

theorem count?_eq_none {allowZero : Bool} {text : String}
    (none_ : ∀ value, ¬ Counts allowZero text value) : count? allowZero text = none :=
  Option.eq_none_iff_forall_ne_some.mpr fun value found =>
    none_ value (count?_eq_some_iff.mp found)

/-! Texts may be taken byte by byte. -/

/-- A text that has one character for each byte of another. -/
def bytewise (text : String) : String :=
  String.ofList (text.toUTF8.data.toList.map fun byte => Char.ofNat byte.toNat)

theorem bytewise_toList (text : String) : (bytewise text).toList =
    (text.toList.flatMap String.utf8EncodeChar).map fun byte => Char.ofNat byte.toNat := by
  have bytes : text.toUTF8.data.toList = text.toList.flatMap String.utf8EncodeChar := by
    rw [String.toUTF8_eq_toByteArray, ← String.utf8Encode_toList, List.utf8Encode,
      List.toList_data_toByteArray]
  rw [bytewise, String.toList_ofList, bytes]

theorem IsRow.ascii (digits : IsRow row) : ∀ c ∈ row, c.toNat < 128 := by
  intro c member
  have most : c.toNat ≤ '9'.toNat := UInt32.le_iff_toNat_le.mp (digits.digits c member).2
  exact Nat.lt_of_le_of_lt most (by decide)

theorem Spells.ascii (spelled : Spells text value) : ∀ c ∈ text, c.toNat < 128 := by
  induction spelled with
  | number signed =>
    cases signed with
    | plain digits => exact digits.ascii
    | plus digits | minus digits => exact List.forall_mem_cons.mpr ⟨by decide, digits.ascii⟩
  | blank blank _ ih =>
    refine List.forall_mem_cons.mpr ⟨?_, ih⟩
    simp only [blanks, List.mem_cons, List.not_mem_nil, or_false] at blank
    rcases blank with rfl | rfl | rfl | rfl | rfl | rfl <;> decide

theorem encode_small {c : Char} (small : c.toNat < 128) :
    (String.utf8EncodeChar c).map (fun byte => Char.ofNat byte.toNat) = [c] := by
  have within : c.val.toNat ≤ 127 := Nat.le_of_lt_succ small
  have same : (UInt8.ofNat c.val.toNat).toNat = c.toNat :=
    Nat.mod_eq_of_lt (Nat.lt_of_le_of_lt within (by decide))
  simp only [String.utf8EncodeChar, within, if_true, List.map_cons, List.map_nil, same,
    Char.ofNat_toNat]

private theorem lead_large {room lead : Nat} (part : Nat) (open_ : 0 < room) (large : 128 ≤ lead)
    (fits : room + lead ≤ 256) : 128 ≤ (UInt8.ofNat (part % room + lead)).toNat := by
  have small := Nat.mod_lt part open_
  rw [UInt8.toNat_ofNat', Nat.mod_eq_of_lt (by omega)]
  omega

theorem encode_large {c : Char} (large : ¬ c.toNat < 128) :
    ∃ byte ∈ String.utf8EncodeChar c, 128 ≤ byte.toNat := by
  have beyond : ¬ c.val.toNat ≤ 127 := fun small => large (Nat.lt_succ_of_le small)
  simp only [String.utf8EncodeChar, beyond, if_false]
  split
  · exact ⟨_, List.mem_cons_self, lead_large _ (by decide) (by decide) (by decide)⟩
  · split
    · exact ⟨_, List.mem_cons_self, lead_large _ (by decide) (by decide) (by decide)⟩
    · exact ⟨_, List.mem_cons_self, lead_large _ (by decide) (by decide) (by decide)⟩

theorem toNat_ofNat_byte (byte : UInt8) : (Char.ofNat byte.toNat).toNat = byte.toNat := by
  have small : byte.toNat < 256 := byte.toNat_lt
  have valid : byte.toNat.isValidChar := Or.inl (by omega)
  rw [Char.ofNat, dif_pos valid]
  rfl

/-- Where a text keeps to ASCII, its bytes are its characters. -/
theorem bytewise_of_ascii {text : String} (ascii : ∀ c ∈ text.toList, c.toNat < 128) :
    bytewise text = text := by
  have each (text : List Char) (ascii : ∀ c ∈ text, c.toNat < 128) :
      (text.flatMap String.utf8EncodeChar).map (fun byte => Char.ofNat byte.toNat) = text := by
    induction text with
    | nil => rfl
    | cons c rest ih =>
      obtain ⟨small, others⟩ := List.forall_mem_cons.mp ascii
      rw [List.flatMap_cons, List.map_append, encode_small small, ih others]
      rfl
  rw [← String.toList_inj, bytewise_toList, each _ ascii]

theorem ascii_of_bytewise {text : String}
    (ascii : ∀ c ∈ (bytewise text).toList, c.toNat < 128) : ∀ c ∈ text.toList, c.toNat < 128 := by
  intro c member
  rw [bytewise_toList] at ascii
  by_cases small : c.toNat < 128
  · exact small
  · obtain ⟨byte, inside, large⟩ := encode_large small
    have bound := ascii _ (List.mem_map.mpr ⟨byte, List.mem_flatMap.mpr ⟨c, member, inside⟩, rfl⟩)
    rw [toNat_ofNat_byte] at bound
    exact absurd bound (Nat.not_lt.mpr large)

/-- The bytes of a text are read as its characters are. -/
theorem count?_bytewise (allowZero : Bool) (text : String) :
    count? allowZero (bytewise text) = count? allowZero text := by
  refine Option.ext fun value => ?_
  rw [count?_eq_some_iff, count?_eq_some_iff]
  constructor
  · intro counts
    rwa [bytewise_of_ascii (ascii_of_bytewise counts.1.ascii)] at counts
  · intro counts
    rwa [bytewise_of_ascii counts.1.ascii]

/-! What a setting comes to. -/

variable {allowZero : Bool} {environment : Environment} {name raw : String} {fallback : Int}

theorem readCount_unset (unset : environment name = none ∨ environment name = some "") :
    readCount allowZero environment name fallback = (fallback, []) := by
  have empty : text? environment name = none := by
    rcases unset with absent | empty
    · rw [text?, absent]
      rfl
    · rw [text?, empty]
      rfl
  simp only [readCount, read, empty]

theorem text?_set (set : environment name = some raw) (filled : raw ≠ "") :
    text? environment name = some raw := by
  rw [text?, set, Option.filter_some, if_pos (by simpa using filled)]

theorem readCount_counts (set : environment name = some raw) (filled : raw ≠ "")
    (counts : Counts allowZero raw value) :
    readCount allowZero environment name fallback = (value, []) := by
  simp only [readCount, read, text?_set set filled, count?_eq_some_iff.mpr counts]

theorem readCount_refuses (set : environment name = some raw) (filled : raw ≠ "")
    (refused : ∀ value, ¬ Counts allowZero raw value) :
    readCount allowZero environment name fallback =
      (fallback, [{ name, text := raw, fallback := toString fallback }]) := by
  simp only [readCount, read, text?_set set filled, count?_eq_none refused]

theorem readCount_accepts_iff (set : environment name = some raw) (filled : raw ≠ "") :
    readCount allowZero environment name fallback = (value, []) ↔ Counts allowZero raw value := by
  refine ⟨fun accepted => ?_, readCount_counts set filled⟩
  cases found : count? allowZero raw with
  | none =>
    have refused : ∀ value, ¬ Counts allowZero raw value := fun value counts => by
      rw [count?_eq_some_iff.mpr counts] at found
      cases found
    rw [readCount_refuses set filled refused] at accepted
    cases accepted
  | some number =>
    have counts := count?_eq_some_iff.mp found
    rw [readCount_counts set filled counts] at accepted
    cases accepted
    exact counts

theorem readCount_range (allowZero : Bool) (environment : Environment) (name : String)
    (fallback : Int) : (readCount allowZero environment name fallback).1 = fallback ∨
      least allowZero ≤ (readCount allowZero environment name fallback).1 ∧
        (readCount allowZero environment name fallback).1 ≤ 4096 := by
  simp only [readCount, read]
  split
  · exact Or.inl rfl
  · split
    next found => exact Or.inr (count?_eq_some_iff.mp found).2
    · exact Or.inl rfl

theorem maxWorkers_range (environment : Environment) :
    0 ≤ (fromEnvironment environment).1.maxWorkers ∧
      (fromEnvironment environment).1.maxWorkers ≤ 4096 := by
  rcases readCount_range true environment "DAGRUN_MAX_WORKERS" 0 with fallback | range
  · have same : (fromEnvironment environment).1.maxWorkers = 0 := fallback
    rw [same]
    decide
  · exact range

end Settings

namespace Executor

variable {config : Config} {root : Option Lease} {gate : Option Nat} {locks : Locks}
  {processors : Nat} {watches : Bool} {sink : Option Sink}

/-- With a number of workers that is a count, it is not this number that is refused. -/
theorem create_not_negative (counted : 0 ≤ config.maxWorkers) (count : Int) :
    (create config processors root gate watches sink locks).1 ≠ .error (.negativeWorkers count) := by
  simp only [create, Int.not_lt.mpr counted, if_false]
  split
  · simp
  · simp
  · split <;> simp

theorem create_bound {lease : Lease} {number : Nat} (counted : 0 ≤ config.maxWorkers)
    (bound : (locks.bind lease number).1 = true) :
    ∃ executor, (create config processors (some lease) (some number) watches sink locks).1 =
      .ok executor := by
  have making := create_making config processors (some lease) (some number) watches sink locks
  generalize create config processors (some lease) (some number) watches sink locks = result
    at making ⊢
  cases making with
  | refused refusal unfit => exact absurd ⟨counted, lease, number, rfl, rfl, bound⟩ unfit
  | made _ _ _ _ => exact ⟨_, rfl⟩

end Executor

namespace Settings

/-- A setting is taken from its text if and only if this spells out a count, be it read by
its characters or by its bytes. So the number of workers is one that no executor refuses. -/
theorem counts_read_exactly (allowZero : Bool) (environment : Environment) (name : String)
    (fallback : Int) :
    (environment name = none ∨ environment name = some "" →
      readCount allowZero environment name fallback = (fallback, [])) ∧
    (∀ raw, environment name = some raw → raw ≠ "" →
      (∀ value, readCount allowZero environment name fallback = (value, []) ↔
        Spells raw.toList value ∧ (if allowZero then 0 else 1) ≤ value ∧ value ≤ 4096) ∧
      ((¬ ∃ value, Spells raw.toList value ∧ (if allowZero then 0 else 1) ≤ value ∧ value ≤ 4096) →
        (readCount allowZero environment name fallback).1 = fallback ∧
        (readCount allowZero environment name fallback).2.map Rejected.line =
          [{ level := .warn, trace := "startup", component := "config", event := "config_invalid",
             message := s!"Invalid value for {name}={raw}, fallback={fallback}" }])) ∧
    (∀ text : String, count? allowZero (bytewise text) = count? allowZero text) ∧
    0 ≤ (fromEnvironment environment).1.maxWorkers ∧
    (fromEnvironment environment).1.maxWorkers ≤ 4096 ∧
    ∀ (processors : Nat) (watches : Bool) (sink : Option Executor.Sink) (locks : Locks),
      (∀ root gate count, (Executor.create
        { maxWorkers := (fromEnvironment environment).1.maxWorkers } processors root gate watches
        sink locks).1 ≠ .error (.negativeWorkers count)) ∧
      ∀ lease gate, (locks.bind lease gate).1 = true → ∃ executor, (Executor.create
        { maxWorkers := (fromEnvironment environment).1.maxWorkers } processors (some lease)
        (some gate) watches sink locks).1 = .ok executor := by
  obtain ⟨positive, bounded⟩ := maxWorkers_range environment
  refine ⟨readCount_unset, ?_, count?_bytewise allowZero, positive, bounded, ?_⟩
  · intro raw set filled
    refine ⟨fun value => readCount_accepts_iff set filled, fun refused => ?_⟩
    rw [readCount_refuses set filled fun value counts => refused ⟨value, counts⟩]
    exact ⟨rfl, rfl⟩
  · intro processors watches sink locks
    exact ⟨fun root gate count => Executor.create_not_negative positive count,
      fun lease gate bound => Executor.create_bound positive bound⟩

private def kiosk : Environment
  | "DAGRUN_MAX_WORKERS" => some " \t+0042"
  | "SHELVES" => some "18446744073709551617"
  | "TILLS" => some " \n"
  | _ => none

theorem kiosk_counts :
    readCount true kiosk "DAGRUN_MAX_WORKERS" 7 = (42, []) ∧
      (∀ value, ¬ (Spells "18446744073709551617".toList value ∧ 1 ≤ value ∧ value ≤ 4096)) ∧
      (readCount false kiosk "TILLS" 7).1 = 7 ∧ readCount false kiosk "DOORS" 7 = (7, []) := by
  obtain ⟨_, set, _⟩ := counts_read_exactly true kiosk "DAGRUN_MAX_WORKERS" 7
  obtain ⟨_, shelves, _⟩ := counts_read_exactly false kiosk "SHELVES" 7
  obtain ⟨_, tills, _⟩ := counts_read_exactly false kiosk "TILLS" 7
  obtain ⟨unset, _⟩ := counts_read_exactly false kiosk "DOORS" 7
  have row : IsRow ['0', '0', '4', '2'] := by
    have digits : ['0', '0', '4', '2'].all Char.isDigit = true := by decide
    exact ⟨by decide, fun c member => isDigit_iff.mp (List.all_eq_true.mp digits c member)⟩
  have spelled : Spells " \t+0042".toList 42 := by
    have chars : " \t+0042".toList = [' ', '\t', '+', '0', '0', '4', '2'] := by decide +kernel
    have value : placeValue ['0', '0', '4', '2'] = 42 := by decide +kernel
    rw [chars, ← Nat.cast_ofNat, ← value]
    exact .blank (by decide) (.blank (by decide) (.number (.plus row)))
  have beyond : readCount false kiosk "SHELVES" 7 =
      (7, [{ name := "SHELVES", text := "18446744073709551617", fallback := "7" }]) := by
    decide +kernel
  have blank : ∀ value, readCount false kiosk "TILLS" 7 ≠ (value, []) := by
    have refused : (readCount false kiosk "TILLS" 7).2 ≠ [] := by decide +kernel
    exact fun value accepted => refused (congrArg (·.2) accepted)
  refine ⟨((set _ rfl (by decide)).1 42).mpr ⟨spelled, by decide, by decide⟩, ?_, ?_,
    unset (Or.inl rfl)⟩
  · intro value counts
    have accepted := ((shelves _ rfl (by decide)).1 value).mpr counts
    rw [beyond] at accepted
    cases accepted
  · refine ((tills _ rfl (by decide)).2 ?_).1
    rintro ⟨value, counts⟩
    exact blank value (((tills _ rfl (by decide)).1 value).mpr counts)

end Settings
end Foreman
