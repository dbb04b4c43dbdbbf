import FilterClause.Calendar.Timestamp
import FilterClause.Proofs.Calendar.Date
import Mathlib.Data.List.Basic

/-!
# Written timestamps

The parts of a timestamp, as they are written one after another, are read back one after another:
the date, the time with its fraction of a second, and the offset.
-/

namespace FilterClause.Timestamp

open Calendar

/-- A fraction of up to nine digits, in nanoseconds. -/
theorem readFraction_padded {width n : ℕ} (hw : 0 < width) (hw' : width ≤ 9) (hn : n < 10 ^ width)
    {s : List Char} (hs : Digit.Ends s) :
    readFraction ('.' :: padded width n ++ s) = some (n * 10 ^ (9 - width), s) := by
  obtain ⟨digits, hchars, hvalue, hne, hlen⟩ := padded_eq width n
  have hlen := hlen hw hn
  have htake : (digits ++ List.replicate 9 Digit.zero).take 9 =
      digits ++ List.replicate (9 - width) Digit.zero := by
    rw [List.take_append, List.take_of_length_le (by omega), List.take_replicate, hlen]
    congr 2
    omega
  have hnumber : Digit.toNat (digits ++ List.replicate (9 - width) Digit.zero) =
      n * 10 ^ (9 - width) := by
    rw [Digit.toNat_append, Digit.toNat_replicate_zero, hvalue, List.length_replicate, Nat.add_zero]
  obtain ⟨d, ds, rfl⟩ := List.exists_cons_of_ne_nil hne
  rw [List.cons_append, readFraction, hchars, Digit.span_map_char _ hs]
  simp only [htake, hnumber]

/-- The characters that an offset begins with: no digit, no point and no blank. -/
def BeginsOffset (s : List Char) : Prop := ∃ c t, s = c :: t ∧ (c = 'Z' ∨ c = '+' ∨ c = '-')

theorem BeginsOffset.ends {s : List Char} (h : BeginsOffset s) : Digit.Ends s := by
  obtain ⟨c, t, rfl, rfl | rfl | rfl⟩ := h <;>
  · intro c hc
    cases hc
    decide

theorem readFraction_fractionChars {n : ℕ} (hn : n < 1000000000) {s : List Char}
    (hs : BeginsOffset s) : readFraction (fractionChars n ++ s) = some (n, s) := by
  unfold fractionChars
  split
  · next h =>
    obtain ⟨c, t, rfl, hc⟩ := hs
    rw [List.nil_append, readFraction, h]
    rintro t' ⟨⟩
    rcases hc with h | h | h <;> cases h
  · split
    · next h =>
      have hread := readFraction_padded (show 0 < 3 by decide) (by decide)
        (show n / 1000000 < 10 ^ 3 by omega) hs.ends
      have hvalue : n / 1000000 * 10 ^ (9 - 3) = n := by omega
      rwa [hvalue] at hread
    · split
      · next h =>
        have hread := readFraction_padded (show 0 < 6 by decide) (by decide)
          (show n / 1000 < 10 ^ 6 by omega) hs.ends
        have hvalue : n / 1000 * 10 ^ (9 - 6) = n := by omega
        rwa [hvalue] at hread
      · have hread := readFraction_padded (show 0 < 9 by decide) (by decide)
          (show n < 10 ^ 9 by omega) hs.ends
        have hvalue : n * 10 ^ (9 - 9) = n := by omega
        rwa [hvalue] at hread

theorem readTime_timeChars (t : TimeOfDay) {s : List Char} (hs : BeginsOffset s) :
    readTime (timeChars t ++ s) = some (t, s) := by
  obtain ⟨hour, minute, second, nanosecond, hh, hm, hsec, hn⟩ := t
  have hnumber {n : ℕ} (h : n < 100) (s : List Char) :
      readNumber 2 (padded 2 n ++ s) = some (n, s) := readNumber_padded (by decide) (by omega) s
  have hmark (s : List Char) : readMark ':' (Text.skipBlanks (':' :: s)) = some s :=
    readMark_skipBlanks (by decide) s
  have hparts : TimeOfDay.ofParts? hour minute second nanosecond =
      some ⟨hour, minute, second, nanosecond, hh, hm, hsec, hn⟩ := by
    rw [TimeOfDay.ofParts?, dif_pos ⟨hh, hm, hsec, hn⟩]
  simp only [readTime, timeChars, List.append_assoc, List.cons_append, Option.bind_eq_bind,
    hnumber (show hour < 100 by omega), hnumber (show minute < 100 by omega),
    hnumber (show second < 100 by omega), hmark, readFraction_fractionChars hn hs,
    Option.bind_some, hparts]
  rfl

theorem readTwoDigits_padded {n : ℕ} (h : n < 100) (s : List Char) :
    readTwoDigits (padded 2 n ++ s) = some (n, s) := by
  obtain ⟨digits, hchars, hvalue, -, hlen⟩ := padded_eq 2 n
  obtain ⟨a, b, rfl⟩ := List.length_eq_two.mp (hlen (by decide) (by omega))
  rw [hchars]
  simp [readTwoDigits, hvalue]

theorem readOffsetSize_padded {hours minutes : ℕ} (hh : hours < 100) (hm : minutes < 60) :
    readOffsetSize (padded 2 hours ++ ':' :: padded 2 minutes) =
      some (hours * 60 + minutes, []) := by
  have hdrop : (':' :: padded 2 minutes).dropWhile isOffsetSeparator = padded 2 minutes := by
    obtain ⟨d, t, ht⟩ := exists_padded_eq_cons 2 minutes
    have hd : isOffsetSeparator d.char = false := by
      have hall : ∀ d : Digit, isOffsetSeparator d.char = false := by decide
      exact hall d
    rw [ht, List.dropWhile_cons_of_pos (by decide), List.dropWhile_cons_of_neg (by simp [hd])]
  have hread := readTwoDigits_padded (show minutes < 100 by omega) []
  rw [List.append_nil] at hread
  simp [readOffsetSize, readTwoDigits_padded hh, hdrop, hread, hm]

theorem beginsOffset_offsetChars (zero : ZeroOffset) (o : Offset) :
    BeginsOffset (offsetChars zero o) := by
  unfold offsetChars
  split
  · exact ⟨'Z', [], rfl, .inl rfl⟩
  · split
    · exact ⟨'-', _, rfl, .inr (.inr rfl)⟩
    · exact ⟨'+', _, rfl, .inr (.inl rfl)⟩

theorem readOffset_offsetChars (zero : ZeroOffset) (o : Offset) :
    readOffset (Text.skipBlanks (offsetChars zero o)) = some (o.minutes, []) := by
  obtain ⟨hlow, hhigh⟩ := o.minutes_mem
  unfold offsetChars
  split
  · next h =>
    rw [h.1]
    decide
  · have hsize := readOffsetSize_padded (show o.minutes.natAbs / 60 < 100 by omega)
      (show o.minutes.natAbs % 60 < 60 by omega)
    have habs : o.minutes.natAbs / 60 * 60 + o.minutes.natAbs % 60 = o.minutes.natAbs := by omega
    rw [habs] at hsize
    have hname (c : Char) (hc : c.toLower ≠ 'u') (s : List Char) :
        isUniversalName ((c :: s).take 3) = false := by
      simp [isUniversalName, hc]
    by_cases hneg : o.minutes < 0
    · have hvalue : -((o.minutes.natAbs : ℕ) : ℤ) = o.minutes := by omega
      rw [if_pos hneg, List.cons_append, Text.skipBlanks_cons (by decide), readOffset,
        hname '-' (by decide)]
      simp only [Bool.false_eq_true, if_false, hsize, Option.map_some, hvalue]
    · have hvalue : ((o.minutes.natAbs : ℕ) : ℤ) = o.minutes := by omega
      rw [if_neg hneg, List.cons_append, Text.skipBlanks_cons (by decide), readOffset,
        hname '+' (by decide)]
      simp only [Bool.false_eq_true, if_false, hsize, Option.map_some, hvalue]

theorem ofText?_text (zero : ZeroOffset) (t : Timestamp) : ofText? (t.text zero) = some t := by
  have hdate (s : List Char) : readDate (t.date.chars ++ s) = some (t.date, s) :=
    readDate_chars t.date s
  have htime := readTime_timeChars t.time (beginsOffset_offsetChars zero t.offset)
  have hoffset : Offset.ofMinutes? t.offset.minutes = some t.offset := by
    rw [Offset.ofMinutes?, dif_pos t.offset.minutes_mem]
  have hparts : ofParts? t.date t.time t.offset = some t := by
    rw [ofParts?, dif_pos t.inRange]
  simp only [ofText?, text, chars, String.toList_ofList, List.append_assoc, List.cons_append,
    hdate, Option.bind_eq_bind, Option.bind_some, readSeparator, htime,
    readOffset_offsetChars zero t.offset, hoffset, hparts]
  rfl

end FilterClause.Timestamp
