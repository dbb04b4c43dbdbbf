import FilterClause.Value.Json
import FilterClause.Proofs.Calendar.Timestamp
import FilterClause.Proofs.Json.Reading
import FilterClause.Proofs.Json.Scan
import FilterClause.Proofs.Numeric.Binary64

/-!
# Written values

The JSON of a value is well formed and reads as that value, unless it is an infinity or a NaN, which
are written as `null` and refused. For a finite double this takes that its digits read back to it.
What is read, from whatever document, is never an infinity or a NaN.
-/

namespace FilterClause

open Json

/-- The digits of the double denote it. -/
def Binary64.DigitsReadBack (x : Binary64) : Prop := (Numeral.ofBinary64 x).toBinary64 = some x

/-- The digits of 1.5 denote it. -/
theorem Binary64.digitsReadBack_three_halves : DigitsReadBack ⟨0x3FF8000000000000⟩ := by
  have hdigits : Numeral.ofBinary64 ⟨0x3FF8000000000000⟩ = ⟨false, [1], [5], none⟩ := by decide
  have hscale : scaleByPower 15 (-1) = some ⟨0x3FF8000000000000⟩ := by
    rw [scaleByPower, if_pos (by decide), divideByPower, if_pos (by decide)]
    decide +kernel
  rw [DigitsReadBack, hdigits]
  exact congrArg (Option.map _) hscale

namespace Value

/-- Not an infinity or a NaN. -/
def IsFinite : Value → Prop
  | float x => x.isFinite
  | _ => True

variable (bound : ℕ)

theorem reads_bool (b : Bool) : Reads bound readBool (.bool b) True b := by
  intro level _ b'
  cases b <;> simp [readBool, Document.ofJson, Json.pass, depth, bind, Except.bind, pure,
    Except.pure, eq_comm]

theorem reads_string (s : String) : Reads bound readString (.string s) True s := by
  intro level _ s'
  simp [readString, Document.ofJson, depth, eq_comm]

theorem reads_denoted {α : Type} {denote : String → Option α} {s : String} {a : α}
    (h : denote s = some a) : Reads bound (readDenoted denote) (.string s) True a := by
  intro level _ b
  simp [readDenoted, readString, Document.ofJson, depth, bind, Except.bind, h, eq_comm]

theorem readInteger_ofInt {low high n : ℤ} (h : low ≤ n ∧ n ≤ high)
    (hrange : -9223372036854775808 ≤ n ∧ n < wordCount) (level : ℕ) :
    readInteger low high level (.ofJson (.number (.ofInt n))) = .ok ⟨n, h⟩ := by
  simp [readInteger, readNumber, Document.ofJson, bind, Except.bind, Numeral.value?_ofInt hrange, h]

theorem reads_int (n : Int64) : Reads bound readInt (.number (.ofInt n.toInt)) True n := by
  have hlow := n.le_toInt
  have hhigh := n.toInt_lt
  have hw : wordCount = 18446744073709551616 := rfl
  intro level _ m
  rw [readInt, readInteger_ofInt (by omega) (by omega)]
  simp [depth, Functor.map, Except.map, eq_comm]

theorem reads_byte (b : UInt8) : Reads bound readByte (.number (.ofInt b.toNat)) True b := by
  have hb := b.toNat_lt
  have hw : wordCount = 18446744073709551616 := rfl
  intro level _ c
  rw [readByte, readInteger_ofInt (by omega) (by omega)]
  simp [depth, Functor.map, Except.map, eq_comm]

theorem reads_float {x : Binary64} (h : x.isFinite → x.DigitsReadBack) :
    Reads bound readFloat (floatJson x) x.isFinite x := by
  intro level _ y
  unfold floatJson
  split
  · next hfin =>
    have hvalue : (Numeral.ofBinary64 x).value? = some (.float x) := by
      rw [Numeral.value?_ofBinary64, h hfin, Option.map_some]
    simp [readFloat, readNumber, Document.ofJson, bind, Except.bind, hvalue, hfin, depth, eq_comm]
  · next hfin =>
    simp [readFloat, readNumber, Document.ofJson, bind, Except.bind, hfin]

theorem reads_carrying {α : Type} {tag : String} {read : Reader α} {make : α → Value} {j : Json}
    {good : Prop} {a : α} (hcase : caseOf tag = some (carrying read make))
    (h : Reads bound read j good a) : Reads bound Value.read (tagged tag j) good (make a) :=
  (Reads.carrying hcase (h.map make)).mono (Nat.le_succ bound)

/-- A value reads back, if it is not an infinity or a NaN. -/
theorem reads {v : Value} (h : ∀ x, v = .float x → x.isFinite → x.DigitsReadBack) :
    Reads bound Value.read v.toJson v.IsFinite v := by
  cases v with
  | null => exact Reads.bare rfl bound
  | bool b => exact reads_carrying bound rfl (reads_bool bound b)
  | int n => exact reads_carrying bound rfl (reads_int bound n)
  | float x => exact reads_carrying bound rfl (reads_float bound (h x rfl))
  | text s => exact reads_carrying bound rfl (reads_string bound s)
  | blob bytes =>
    have hbytes : Reads (bound + 1) (readList readByte)
        (.array (bytes.map fun b => .number (.ofInt b.toNat))) (∀ b ∈ bytes, True) bytes :=
      Reads.list fun b _ => reads_byte bound b
    have hblob : Reads bound Value.read (toJson (blob bytes)) (∀ b ∈ bytes, True) (blob bytes) :=
      reads_carrying bound rfl (hbytes.mono (Nat.le_succ bound))
    exact hblob.congr (by simp [IsFinite])
  | date d => exact reads_carrying bound rfl (reads_denoted bound d.ofText?_text)
  | timestamp t => exact reads_carrying bound rfl (reads_denoted bound (t.ofText?_text .letter))

theorem tagged_isWellFormed {tag : String} {j : Json} (h : j.IsWellFormed) :
    (tagged tag j).IsWellFormed :=
  .object _ (by simpa using h)

theorem toJson_isWellFormed (v : Value) : v.toJson.IsWellFormed := by
  cases v with
  | null => exact .string _
  | bool b => exact tagged_isWellFormed (.bool b)
  | int n => exact tagged_isWellFormed (.number _ (Numeral.ofInt_isWellFormed _))
  | float x =>
    refine tagged_isWellFormed ?_
    unfold floatJson
    split
    · exact .number _ (Numeral.ofBinary64_isWellFormed x)
    · exact .null
  | text s => exact tagged_isWellFormed (.string s)
  | blob bytes =>
    refine tagged_isWellFormed (.array _ ?_)
    simp only [List.mem_map, forall_exists_index, and_imp, forall_apply_eq_imp_iff₂]
    exact fun b _ => .number _ (Numeral.ofInt_isWellFormed _)
  | date d => exact tagged_isWellFormed (.string _)
  | timestamp t => exact tagged_isWellFormed (.string _)

/-- What may be read where `n` levels may be opened. -/
structure Fits (v : Value) (n : ℕ) : Prop where
  isFinite : v.IsFinite
  depth_le : v.toJson.depth ≤ n

theorem depth_tagged (tag : String) (j : Json) : (tagged tag j).depth = j.depth + 1 := by
  simp [tagged, depth, memberDepth]

theorem fits_of_readContent {α : Type} {read : Reader α} {make : α → Value} {level n : ℕ}
    {doc : Document} {v : Value} (h : (carrying read make).readContent level doc = .ok v)
    (hmake : ∀ a, read level doc = .ok a → (make a).Fits n) : v.Fits n := by
  obtain ⟨a, ha, rfl⟩ := map_eq_ok_iff.mp h
  exact hmake a ha

theorem fits_blob {level : ℕ} {doc : Document} {bytes : List UInt8}
    (h : readList readByte level doc = .ok bytes) : (blob bytes).Fits (level + 1) := by
  obtain ⟨m, rfl, -⟩ := exists_item_of_readList h
  have hitems (bytes : List UInt8) :
      itemDepth (bytes.map fun b => .number (.ofInt b.toNat)) = 0 := by
    induction bytes with
    | nil => rfl
    | cons b bytes ih => rw [List.map_cons, itemDepth, ih, depth, Nat.max_self]
  refine ⟨trivial, ?_⟩
  rw [toJson, depth_tagged, depth, hitems]
  omega

/-- No document is read as an infinity or a NaN, or as a value that is written deeper than the
document may be. -/
theorem fits_of_read {level : ℕ} {doc : Document} {v : Value} (h : Value.read level doc = .ok v) :
    v.Fits level := by
  rcases readUnion_eq_ok_iff.mp h with
    ⟨name, fault, -, hcase⟩ | ⟨n, name, content, unionCase, rfl, -, hcase, h⟩
  · unfold caseOf at hcase
    split at hcase <;> cases hcase
    exact ⟨trivial, Nat.zero_le _⟩
  · have hflat {tag : String} {j : Json} (hj : j.depth = 0) : (tagged tag j).depth ≤ n + 1 := by
      rw [depth_tagged, hj]
      exact Nat.le_add_left 1 n
    unfold caseOf at hcase
    split at hcase <;> cases hcase
    · obtain ⟨_, -, h⟩ := bind_eq_ok_iff.mp h
      cases h
      exact ⟨trivial, Nat.zero_le _⟩
    · exact fits_of_readContent h fun b _ => ⟨trivial, hflat rfl⟩
    · exact fits_of_readContent h fun i _ => ⟨trivial, hflat rfl⟩
    · refine fits_of_readContent h fun x hx => ⟨readFloat_isFinite hx, hflat ?_⟩
      rw [floatJson, if_pos (readFloat_isFinite hx), depth]
    · exact fits_of_readContent h fun s _ => ⟨trivial, hflat rfl⟩
    · exact fits_of_readContent h fun bytes hbytes => fits_blob hbytes
    · exact fits_of_readContent h fun d _ => ⟨trivial, hflat rfl⟩
    · exact fits_of_readContent h fun t _ => ⟨trivial, hflat rfl⟩

end Value

end FilterClause
